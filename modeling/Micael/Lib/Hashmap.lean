import Micael.Foundation.Run
import Micael.Kernel.Machine

/-!
# The open-addressing hash map

A map has `cap` slots; a slot is empty until a bucket item is allocated for it,
and an item stays allocated when its key is removed, marked unoccupied.  A key is
probed for in at most twelve slots, starting at its hash modulo the capacity.

The three probe loops stop on different conditions: the search for a free bucket
stops at a slot that is empty or unoccupied, `hm_get` gives up at such a slot, and
`hm_remove` looks at the key of every item, occupied or not, and reads through an
empty slot.

Slot numbers are an `int` in the source.  A capacity that `kcalloc` can serve is
far below `2 ^ 31`, so they are natural numbers here.  Allocating an item cannot
fail (`kmalloc` does not return null), and the lock is left out.

Main results:

- Theorem {lit}`hmInsert_refines` and {lit}`hmRemove_refines`: both updates keep
  the map in step with a finite function, a removal under the condition that the
  removed slot is on no other key's probe path.
- Theorem {lit}`hm_get_correct`: in every run whose removals meet that condition,
  `hm_get` returns what was inserted last.
- Theorem {lit}`hmGet_lost_of_crossing`: a removal that does not meet it makes
  another key unreachable.
-/

namespace Micael
namespace Lib

open Foundation

/-! ## The map and its three probe loops -/

/-- `BUCKET_MAX_LEN`. -/
def bucketMaxLen : Nat := 12

/-- `UINT32_MAX`, the hash that stands for an invalid key. -/
def uint32Max : UInt32 := 0xffffffff

/-- `hm_hash_num` of a non-null key. -/
def hmHashNum (key : UInt32) : UInt32 :=
  let tmp := ((key >>> 16) ^^^ key) * 0x45d9f3b
  let tmp := ((tmp >>> 16) ^^^ tmp) * 0x45d9f3b
  (tmp >>> 16) ^^^ tmp

/-- The turn of `hm_hash_str` for one character; a `char` is signed. -/
def hmHashChar (hash : UInt32) (c : UInt8) : UInt32 :=
  ((hash <<< 5) + hash) + UInt32.ofBitVec (c.toBitVec.signExtend 32)

/-- `hm_hash_str` of a non-null key, the characters before the terminating zero. -/
def hmHashStr (key : List UInt8) : UInt32 := key.foldl hmHashChar 5381

/-- `hm_item_t`; a null `data` is zero. -/
structure HmItem where
  data : Nat
  key : UInt32
  occupied : Bool
deriving DecidableEq, Repr

/-- `hashmap_t`: the count that is never decremented, the capacity and the slots. -/
structure Hashmap where
  len : Nat
  cap : Nat
  elem : Nat → Option HmItem

/-- `hm_alloc_hashmap`. -/
def hmAllocHashmap (size : Nat) : Hashmap := ⟨0, size, fun _ => none⟩

/-- The next slot of a probe. -/
def Hashmap.next (hm : Hashmap) (index : Nat) : Nat := (index + 1) % hm.cap

/-- The loop of `hm_find_free_bucket` with `n` turns left. -/
def findFreeLoop (hm : Hashmap) : Nat → Nat → Option Nat
  | 0, _ => none
  | n + 1, index =>
      match hm.elem index with
      | none => some index
      | some item =>
          if item.occupied = false then some index
          else findFreeLoop hm n (hm.next index)

/-- `hm_find_free_bucket`; `none` is `-ENOSPC`. -/
def hmFindFreeBucket (hm : Hashmap) (key : UInt32) : Option Nat :=
  findFreeLoop hm bucketMaxLen (key.toNat % hm.cap)

/-- `hm_insert`: the error, if any, and the new map. -/
def hmInsert {K : Type*} (hash : K → UInt32) (hm : Hashmap) (ukey : K) (elem : Nat) :
    Option Errno × Hashmap :=
  if elem = 0 then (some .einval, hm)
  else if hm.len = hm.cap then (some .enospc, hm)
  else if hash ukey = uint32Max then (some .einval, hm)
  else
    match hmFindFreeBucket hm (hash ukey) with
    | none => (some .enospc, hm)
    | some index =>
        (none, { hm with
          len := hm.len + 1
          elem := Function.update hm.elem index (some ⟨elem, hash ukey, true⟩) })

/-- The loop of `hm_remove`: the first slot whose item has the key.  An empty slot
is read through a null pointer. -/
def removeLoop (hm : Hashmap) (key : UInt32) : Nat → Nat → Except Halt (Option Nat)
  | 0, _ => .ok none
  | n + 1, index =>
      match hm.elem index with
      | none => .error .fault
      | some item =>
          if item.key = key then .ok (some index)
          else removeLoop hm key n (hm.next index)

/-- Clear the `occupied` flag of a slot. -/
def Hashmap.vacate (hm : Hashmap) (index : Nat) : Hashmap :=
  { hm with
    elem := Function.update hm.elem index
      ((hm.elem index).map fun item => { item with occupied := false }) }

/-- `hm_remove`. -/
def hmRemove {K : Type*} (hash : K → UInt32) (hm : Hashmap) (ukey : K) :
    Except Halt (Option Errno × Hashmap) :=
  if hash ukey = uint32Max then .ok (some .einval, hm)
  else do
    match ← removeLoop hm (hash ukey) bucketMaxLen ((hash ukey).toNat % hm.cap) with
    | none => pure (some .enoent, hm)
    | some index => pure (none, hm.vacate index)

/-- The loop of `hm_get`. -/
def getLoop (hm : Hashmap) (key : UInt32) : Nat → Nat → Nat
  | 0, _ => 0
  | n + 1, index =>
      match hm.elem index with
      | none => 0
      | some item =>
          if item.occupied = false then 0
          else if item.key = key then item.data
          else getLoop hm key n (hm.next index)

/-- `hm_get`; zero is the null pointer. -/
def hmGet {K : Type*} (hash : K → UInt32) (hm : Hashmap) (ukey : K) : Nat :=
  if hash ukey = uint32Max then 0
  else getLoop hm (hash ukey) bucketMaxLen ((hash ukey).toNat % hm.cap)

/-! ## Probe positions -/

/-- The slot a probe for `key` looks at in turn `i`. -/
def Hashmap.slot (hm : Hashmap) (key : UInt32) (i : Nat) : Nat := (key.toNat + i) % hm.cap

/-- The slot holds an occupied item. -/
def Hashmap.Occupied (hm : Hashmap) (index : Nat) : Prop :=
  ∃ item, hm.elem index = some item ∧ item.occupied = true

/-- The slot holds an occupied item with the key. -/
def Hashmap.Holds (hm : Hashmap) (index : Nat) (key : UInt32) (data : Nat) : Prop :=
  hm.elem index = some ⟨data, key, true⟩

theorem Hashmap.Holds.occupied {hm : Hashmap} {index data : Nat} {key : UInt32}
    (h : hm.Holds index key data) : hm.Occupied index :=
  ⟨_, h, rfl⟩

theorem Hashmap.Occupied.holds {hm : Hashmap} {index : Nat} (h : hm.Occupied index) :
    ∃ key data, hm.Holds index key data := by
  obtain ⟨⟨data, key, occupied⟩, helem, hocc⟩ := h
  simp only at hocc
  subst hocc
  exact ⟨key, data, helem⟩

theorem Hashmap.slot_zero (hm : Hashmap) (key : UInt32) :
    hm.slot key 0 = key.toNat % hm.cap := by
  simp [Hashmap.slot]

theorem Hashmap.next_slot (hm : Hashmap) (key : UInt32) (i : Nat) :
    hm.next (hm.slot key i) = hm.slot key (i + 1) := by
  simp [Hashmap.next, Hashmap.slot, Nat.add_assoc]

/-- A loop over the slots of a key that passes the slots before `i` reaches turn `i`. -/
theorem Hashmap.probe_advance {α : Type} {loop : Nat → Nat → α} {hm : Hashmap} {key : UInt32}
    {n i : Nat} (hi : i ≤ n)
    (hpass : ∀ j < i, ∀ m, loop (m + 1) (hm.slot key j) = loop m (hm.slot key (j + 1))) :
    loop n (hm.slot key 0) = loop (n - i) (hm.slot key i) := by
  induction i with
  | zero => rfl
  | succ i ih =>
      rw [ih (by omega) fun j hj => hpass j (by omega)]
      obtain ⟨m, hm'⟩ : ∃ m, n - i = m + 1 := ⟨n - i - 1, by omega⟩
      have hrest : n - (i + 1) = m := by omega
      rw [hm', hrest, hpass i (by omega)]

/-- A probe that meets only occupied slots of other keys reaches turn `i`. -/
theorem getLoop_advance {hm : Hashmap} {key : UInt32} {n i : Nat} (hi : i ≤ n)
    (hpath : ∀ j < i, ∃ k d, hm.Holds (hm.slot key j) k d ∧ k ≠ key) :
    getLoop hm key n (hm.slot key 0) = getLoop hm key (n - i) (hm.slot key i) := by
  apply Hashmap.probe_advance hi
  intro j hj m
  obtain ⟨k, d, hholds, hne⟩ := hpath j hj
  have helem : hm.elem (hm.slot key j) = some ⟨d, k, true⟩ := hholds
  rw [getLoop, helem]
  simp [hne, Hashmap.next_slot]

/-- The same for the loop of `hm_remove`. -/
theorem removeLoop_advance {hm : Hashmap} {key : UInt32} {n i : Nat} (hi : i ≤ n)
    (hpath : ∀ j < i, ∃ k d, hm.Holds (hm.slot key j) k d ∧ k ≠ key) :
    removeLoop hm key n (hm.slot key 0) = removeLoop hm key (n - i) (hm.slot key i) := by
  apply Hashmap.probe_advance hi
  intro j hj m
  obtain ⟨k, d, hholds, hne⟩ := hpath j hj
  have helem : hm.elem (hm.slot key j) = some ⟨d, k, true⟩ := hholds
  rw [removeLoop, helem]
  simp [hne, Hashmap.next_slot]

/-- A free bucket is the first slot of the probe that is not occupied. -/
theorem findFreeLoop_some {hm : Hashmap} {key : UInt32} {n i index : Nat}
    (h : findFreeLoop hm n (hm.slot key i) = some index) :
    ∃ j < n, index = hm.slot key (i + j) ∧ ¬ hm.Occupied index ∧
      ∀ j' < j, hm.Occupied (hm.slot key (i + j')) := by
  induction n generalizing i with
  | zero => simp [findFreeLoop] at h
  | succ n ih =>
      rw [findFreeLoop] at h
      split at h
      · next hnone =>
          simp only [Option.some.injEq] at h
          subst h
          refine ⟨0, by omega, rfl, ?_, by omega⟩
          rintro ⟨item, hitem, -⟩
          rw [hnone] at hitem
          cases hitem
      · next item hitem =>
          split at h
          · next hfree =>
              simp only [Option.some.injEq] at h
              subst h
              refine ⟨0, by omega, rfl, ?_, by omega⟩
              rintro ⟨item', hitem', hocc⟩
              rw [hitem] at hitem'
              cases hitem'
              rw [hfree] at hocc
              cases hocc
          · next hocc =>
              rw [Hashmap.next_slot] at h
              obtain ⟨j, hj, hindex, hfree, hpath⟩ := ih h
              refine ⟨j + 1, by omega, ?_, hfree, ?_⟩
              · rw [hindex, Nat.add_assoc, Nat.add_comm 1 j]
              · intro j' hj'
                cases j' with
                | zero => exact ⟨item, hitem, by simpa using hocc⟩
                | succ j' =>
                    have := hpath j' (by omega)
                    rwa [Nat.add_assoc, Nat.add_comm 1 j'] at this

/-! ## Agreement with a finite function -/

/-- The map represents the function `m` from keys to the pointers stored for them:
every occupied slot belongs to a key of `m`, no key is stored twice, and every key
of `m` is stored in its probe window behind occupied slots only. -/
structure Represents {K : Type*} (hash : K → UInt32) (hm : Hashmap) (m : K → Option Nat) :
    Prop where
  sound : ∀ {index key data}, hm.Holds index key data → ∃ k, hash k = key ∧ m k = some data
  unique : ∀ {index index' key data data'},
    hm.Holds index key data → hm.Holds index' key data' → index = index'
  found : ∀ {k data}, m k = some data → ∃ i < bucketMaxLen,
    hm.Holds (hm.slot (hash k) i) (hash k) data ∧
      ∀ j < i, hm.Occupied (hm.slot (hash k) j)
  nonnull : ∀ {k data}, m k = some data → data ≠ 0

/-- The keys of a map: distinct keys have distinct hashes, and no key has the
reserved hash. -/
structure GoodHash {K : Type*} (hash : K → UInt32) : Prop where
  injective : Function.Injective hash
  valid : ∀ k, hash k ≠ uint32Max

section Lookup

variable {K : Type*} {hash : K → UInt32} {hm : Hashmap} {m : K → Option Nat}

/-- A probe path can be cut at the first slot that holds the key, so that the
slots before it hold other keys. -/
theorem Represents.path (h : Represents hash hm m) {k : K} {data : Nat}
    (hk : m k = some data) : ∃ i < bucketMaxLen,
      hm.Holds (hm.slot (hash k) i) (hash k) data ∧
        ∀ j < i, ∃ key d, hm.Holds (hm.slot (hash k) j) key d ∧ key ≠ hash k := by
  classical
  obtain ⟨i₀, hi₀, hholds₀, hpath₀⟩ := h.found hk
  have hex : ∃ i, hm.Holds (hm.slot (hash k) i) (hash k) data := ⟨i₀, hholds₀⟩
  refine ⟨Nat.find hex, (Nat.find_min' hex hholds₀).trans_lt hi₀, Nat.find_spec hex, ?_⟩
  intro j hj
  have hbefore : j < i₀ := hj.trans_le (Nat.find_min' hex hholds₀)
  obtain ⟨key, d, hholds⟩ := (hpath₀ j hbefore).holds
  refine ⟨key, d, hholds, ?_⟩
  rintro rfl
  -- an earlier slot with the same key would be the same slot
  have hslot := h.unique hholds hholds₀
  exact Nat.find_min hex hj (hslot ▸ hholds₀)

/-- `hm_get` on a map that represents `m`. -/
theorem Represents.hmGet_eq (hgood : GoodHash hash) (h : Represents hash hm m) (k : K) :
    hmGet hash hm k = (m k).getD 0 := by
  rw [hmGet, if_neg (hgood.valid k), ← Hashmap.slot_zero]
  cases hk : m k with
  | some data =>
      obtain ⟨i, hi, hholds, hpath⟩ := h.path hk
      rw [getLoop_advance hi.le hpath]
      obtain ⟨n, hn⟩ : ∃ n, bucketMaxLen - i = n + 1 := ⟨bucketMaxLen - i - 1, by omega⟩
      have helem : hm.elem (hm.slot (hash k) i) = some ⟨data, hash k, true⟩ := hholds
      rw [hn, getLoop, helem]
      simp
  | none =>
      -- a stored item with the key would make the key present
      have hnone : ∀ n i, getLoop hm (hash k) n (hm.slot (hash k) i) = 0 := by
        intro n
        induction n with
        | zero => exact fun _ => rfl
        | succ n ih =>
            intro i
            rw [getLoop]
            split
            · rfl
            · next item hitem =>
                by_cases hocc : item.occupied = false
                · simp [hocc]
                · by_cases hkey : item.key = hash k
                  · exfalso
                    have hholds : hm.Holds (hm.slot (hash k) i) (hash k) item.data := by
                      rw [Hashmap.Holds, hitem, ← hkey]
                      cases item
                      simp_all
                    obtain ⟨k', hk', hm'⟩ := h.sound hholds
                    rw [hgood.injective hk', hk] at hm'
                    cases hm'
                  · rw [if_neg hocc, if_neg hkey, Hashmap.next_slot]
                    exact ih (i + 1)
      exact hnone _ _

end Lookup

/-- A fresh map represents the empty function. -/
theorem represents_alloc {K : Type*} (hash : K → UInt32) (cap : Nat) :
    Represents hash (hmAllocHashmap cap) fun _ => none where
  sound h := by cases h
  unique h := by cases h
  found h := by cases h
  nonnull h := by cases h

/-! ## Updates -/

/-- The slot is one that a lookup of `key` has to pass before it reaches the first
slot holding `key`. -/
def Hashmap.Crosses (hm : Hashmap) (key : UInt32) (index : Nat) : Prop :=
  ∃ i < bucketMaxLen, (∃ data, hm.Holds (hm.slot key i) key data) ∧
    (∀ j < i, ¬ ∃ data, hm.Holds (hm.slot key j) key data) ∧ ∃ j < i, hm.slot key j = index

/-- The removal of `k` vacates no slot that another key of `m` is looked up through. -/
def SafeRemoval {K : Type*} (hash : K → UInt32) (hm : Hashmap) (m : K → Option Nat) (k : K) :
    Prop :=
  ∀ index data, hm.Holds index (hash k) data →
    ∀ k', k' ≠ k → m k' ≠ none → ¬ hm.Crosses (hash k') index

theorem Hashmap.vacate_slot (hm : Hashmap) (index i : Nat) (key : UInt32) :
    (hm.vacate index).slot key i = hm.slot key i :=
  rfl

theorem Hashmap.vacate_elem_of_ne {hm : Hashmap} {index index' : Nat} (h : index' ≠ index) :
    (hm.vacate index).elem index' = hm.elem index' :=
  Function.update_of_ne h _ _

theorem Hashmap.not_occupied_vacate (hm : Hashmap) (index : Nat) :
    ¬ (hm.vacate index).Occupied index := by
  rintro ⟨item, hitem, hocc⟩
  simp only [Hashmap.vacate, Function.update_self, Option.map_eq_some_iff] at hitem
  obtain ⟨old, -, rfl⟩ := hitem
  cases hocc

theorem Hashmap.vacate_holds_iff {hm : Hashmap} {index index' : Nat} {key : UInt32} {data : Nat} :
    (hm.vacate index).Holds index' key data ↔ index' ≠ index ∧ hm.Holds index' key data := by
  constructor
  · intro h
    have hne : index' ≠ index := by
      rintro rfl
      exact hm.not_occupied_vacate index' h.occupied
    exact ⟨hne, by rwa [Hashmap.Holds, Hashmap.vacate_elem_of_ne hne] at h⟩
  · rintro ⟨hne, h⟩
    rwa [Hashmap.Holds, Hashmap.vacate_elem_of_ne hne]

section Updates

variable {K : Type*} {hash : K → UInt32} {hm hm' : Hashmap} {m : K → Option Nat}

/-- What a successful `hm_insert` does. -/
theorem hmInsert_some {k : K} {elem : Nat} (h : hmInsert hash hm k elem = (none, hm')) :
    elem ≠ 0 ∧ ∃ i < bucketMaxLen, ¬ hm.Occupied (hm.slot (hash k) i) ∧
      (∀ j < i, hm.Occupied (hm.slot (hash k) j)) ∧
      hm' = { hm with
        len := hm.len + 1
        elem := Function.update hm.elem (hm.slot (hash k) i) (some ⟨elem, hash k, true⟩) } := by
  rw [hmInsert] at h
  split at h
  · cases h
  · next hnonnull =>
      split at h
      · cases h
      · split at h
        · cases h
        · split at h
          · cases h
          · next index hfree =>
              rw [hmFindFreeBucket, ← Hashmap.slot_zero] at hfree
              obtain ⟨i, hi, rfl, hvacant, hpath⟩ := findFreeLoop_some hfree
              simp only [Nat.zero_add] at hvacant hpath h
              exact ⟨hnonnull, i, hi, hvacant, hpath, (congrArg Prod.snd h).symm⟩

/-- A failed `hm_insert` changes nothing. -/
theorem hmInsert_error {k : K} {elem : Nat} {e : Errno}
    (h : hmInsert hash hm k elem = (some e, hm')) : hm' = hm := by
  rw [hmInsert] at h
  repeat' split at h
  all_goals
    cases h
    try rfl

/-- A successful insertion of an absent key adds it to the represented function. -/
theorem hmInsert_refines [DecidableEq K] (hgood : GoodHash hash) (h : Represents hash hm m) {k : K} {elem : Nat}
    (habsent : m k = none) (hins : hmInsert hash hm k elem = (none, hm')) :
    Represents hash hm' (Function.update m k (some elem)) := by
  obtain ⟨hnonnull, i, hi, hvacant, hpath, rfl⟩ := hmInsert_some hins
  set index := hm.slot (hash k) i with hindex
  set new : Hashmap := { hm with
    len := hm.len + 1
    elem := Function.update hm.elem index (some ⟨elem, hash k, true⟩) } with hnew
  have hslot : ∀ key j, new.slot key j = hm.slot key j := fun _ _ => rfl
  have hself : new.Holds index (hash k) elem := Function.update_self ..
  have hother : ∀ index' key data, index' ≠ index →
      (new.Holds index' key data ↔ hm.Holds index' key data) := by
    intro index' key data hne
    rw [Hashmap.Holds, Hashmap.Holds, hnew]
    simp only [Function.update_of_ne hne]
  have hocc : ∀ index', hm.Occupied index' → new.Occupied index' := by
    intro index' h'
    obtain ⟨key, data, hholds⟩ := h'.holds
    have hne : index' ≠ index := by
      rintro rfl
      exact hvacant h'
    exact ((hother _ _ _ hne).mpr hholds).occupied
  -- the key was absent, so no old slot holds it
  have hfresh : ∀ index' data, ¬ hm.Holds index' (hash k) data := by
    intro index' data hholds
    obtain ⟨k', hk', hm'⟩ := h.sound hholds
    rw [hgood.injective hk', habsent] at hm'
    cases hm'
  have hat : ∀ key data, new.Holds index key data → key = hash k ∧ data = elem := by
    intro key data hholds
    have hsame := hself.symm.trans hholds
    simp only [Option.some.injEq, HmItem.mk.injEq, and_true] at hsame
    exact ⟨hsame.2.symm, hsame.1.symm⟩
  refine ⟨?_, ?_, ?_, ?_⟩
  · intro index' key data hholds
    by_cases hne : index' = index
    · subst hne
      obtain ⟨rfl, rfl⟩ := hat _ _ hholds
      exact ⟨k, rfl, Function.update_self ..⟩
    · obtain ⟨k', hk', hm'⟩ := h.sound ((hother _ _ _ hne).mp hholds)
      refine ⟨k', hk', ?_⟩
      rw [Function.update_of_ne, hm']
      rintro rfl
      rw [habsent] at hm'
      cases hm'
  · intro index₁ index₂ key data₁ data₂ h₁ h₂
    by_cases hne₁ : index₁ = index
    · by_cases hne₂ : index₂ = index
      · rw [hne₁, hne₂]
      · subst hne₁
        obtain ⟨rfl, rfl⟩ := hat _ _ h₁
        exact absurd ((hother _ _ _ hne₂).mp h₂) (hfresh _ _)
    · by_cases hne₂ : index₂ = index
      · subst hne₂
        obtain ⟨rfl, rfl⟩ := hat _ _ h₂
        exact absurd ((hother _ _ _ hne₁).mp h₁) (hfresh _ _)
      · exact h.unique ((hother _ _ _ hne₁).mp h₁) ((hother _ _ _ hne₂).mp h₂)
  · intro k' data hk'
    by_cases hne : k' = k
    · subst hne
      rw [Function.update_self] at hk'
      cases hk'
      exact ⟨i, hi, hself, fun j hj => hocc _ (hpath j hj)⟩
    · rw [Function.update_of_ne hne] at hk'
      obtain ⟨j, hj, hholds, hpath'⟩ := h.found hk'
      refine ⟨j, hj, ?_, fun l hl => hocc _ (hpath' l hl)⟩
      refine (hother _ _ _ ?_).mpr hholds
      intro hsame
      have hheld := hholds.occupied
      rw [← hslot, hsame] at hheld
      exact hvacant hheld
  · intro k' data hk'
    by_cases hne : k' = k
    · subst hne
      rw [Function.update_self] at hk'
      cases hk'
      exact hnonnull
    · rw [Function.update_of_ne hne] at hk'
      exact h.nonnull hk'

/-- The removal of a present key finds the key's slot and vacates it. -/
theorem Represents.hmRemove_eq (hgood : GoodHash hash) (h : Represents hash hm m) {k : K}
    {data : Nat} (hk : m k = some data) :
    ∃ index, hm.Holds index (hash k) data ∧
      hmRemove hash hm k = .ok (none, hm.vacate index) := by
  obtain ⟨i, hi, hholds, hpath⟩ := h.path hk
  refine ⟨_, hholds, ?_⟩
  rw [hmRemove, if_neg (hgood.valid k), ← Hashmap.slot_zero, removeLoop_advance hi.le hpath]
  obtain ⟨n, hn⟩ : ∃ n, bucketMaxLen - i = n + 1 := ⟨bucketMaxLen - i - 1, by omega⟩
  have helem : hm.elem (hm.slot (hash k) i) = some ⟨data, hash k, true⟩ := hholds
  rw [hn, removeLoop, helem]
  simp only [if_true]
  rfl

/-- A safe removal of a present key succeeds and takes it out of the represented
function. -/
theorem hmRemove_refines [DecidableEq K] (hgood : GoodHash hash) (h : Represents hash hm m) {k : K}
    (hpresent : m k ≠ none) (hsafe : SafeRemoval hash hm m k) :
    ∃ hm', hmRemove hash hm k = .ok (none, hm') ∧
      Represents hash hm' (Function.update m k none) := by
  obtain ⟨data, hk⟩ := Option.ne_none_iff_exists'.mp hpresent
  obtain ⟨index, hholds, heq⟩ := h.hmRemove_eq hgood hk
  refine ⟨_, heq, ?_, ?_, ?_, ?_⟩
  · intro index' key d hheld
    obtain ⟨hne, hheld⟩ := Hashmap.vacate_holds_iff.mp hheld
    obtain ⟨k', rfl, hm'⟩ := h.sound hheld
    refine ⟨k', rfl, ?_⟩
    rw [Function.update_of_ne, hm']
    rintro rfl
    exact hne (h.unique hheld hholds)
  · intro index₁ index₂ key d₁ d₂ h₁ h₂
    exact h.unique (Hashmap.vacate_holds_iff.mp h₁).2 (Hashmap.vacate_holds_iff.mp h₂).2
  · intro k' d hk'
    have hne : k' ≠ k := by
      rintro rfl
      rw [Function.update_self] at hk'
      cases hk'
    rw [Function.update_of_ne hne] at hk'
    obtain ⟨i, hi, hheld, hpath⟩ := h.path hk'
    have hcross := hsafe index data hholds k' hne (by simp [hk'])
    refine ⟨i, hi, Hashmap.vacate_holds_iff.mpr ⟨?_, hheld⟩, ?_⟩
    · intro hsame
      rw [Hashmap.vacate_slot] at hsame
      rw [hsame] at hheld
      have hsame' := hheld.symm.trans hholds
      simp only [Option.some.injEq, HmItem.mk.injEq] at hsame'
      exact hne (hgood.injective hsame'.2.1)
    · intro j hj
      obtain ⟨key, d', hpassed, -⟩ := hpath j hj
      refine Hashmap.Holds.occupied (Hashmap.vacate_holds_iff.mpr ⟨?_, hpassed⟩)
      intro hsame
      refine hcross ⟨i, hi, ⟨d, hheld⟩, ?_, j, hj, hsame⟩
      rintro l hl ⟨d'', hagain⟩
      obtain ⟨key', e, hother, hkey'⟩ := hpath l hl
      have hsame' := hother.symm.trans hagain
      simp only [Option.some.injEq, HmItem.mk.injEq] at hsame'
      exact hkey' hsame'.2.1
  · intro k' d hk'
    have hne : k' ≠ k := by
      rintro rfl
      rw [Function.update_self] at hk'
      cases hk'
    rw [Function.update_of_ne hne] at hk'
    exact h.nonnull hk'

/-- A lookup gives up at a vacant slot. -/
theorem getLoop_vacant {key : UInt32} {n i j : Nat} (hj : i ≤ j)
    (hvacant : ¬ hm.Occupied (hm.slot key j))
    (habsent : ∀ l < j, ¬ ∃ data, hm.Holds (hm.slot key l) key data) :
    getLoop hm key n (hm.slot key i) = 0 := by
  induction n generalizing i with
  | zero => rfl
  | succ n ih =>
      rw [getLoop]
      split
      · rfl
      · next item hitem =>
          by_cases hocc : item.occupied = false
          · rw [if_pos hocc]
          · have hocc' : item.occupied = true := by simpa using hocc
            have hij : i ≠ j := by
              rintro rfl
              exact hvacant ⟨item, hitem, hocc'⟩
            have hkey : item.key ≠ key := by
              rintro rfl
              refine habsent i (by omega) ⟨item.data, ?_⟩
              rw [Hashmap.Holds, hitem, ← hocc']
            rw [if_neg hocc, if_neg hkey, Hashmap.next_slot]
            exact ih (by omega)

/-- An unsafe removal loses another key: it is still present, but looking it up
gives null. -/
theorem hmGet_lost_of_crossing (hgood : GoodHash hash) (h : Represents hash hm m) {k : K}
    (hpresent : m k ≠ none) (hcrossing : ¬ SafeRemoval hash hm m k) :
    ∃ hm' k', hmRemove hash hm k = .ok (none, hm') ∧ k' ≠ k ∧
      hmGet hash hm' k' ≠ (m k').getD 0 := by
  obtain ⟨data, hk⟩ := Option.ne_none_iff_exists'.mp hpresent
  obtain ⟨index, hholds, heq⟩ := h.hmRemove_eq hgood hk
  simp only [SafeRemoval, not_forall, not_not] at hcrossing
  obtain ⟨index', d, hheld, k', hne, hpresent', hcross⟩ := hcrossing
  obtain rfl := h.unique hholds hheld
  obtain ⟨data', hk'⟩ := Option.ne_none_iff_exists'.mp hpresent'
  refine ⟨_, k', heq, hne, ?_⟩
  obtain ⟨i, -, -, hfirst, j, hj, hslot⟩ := hcross
  have hlost : hmGet hash (hm.vacate index) k' = 0 := by
    rw [hmGet, if_neg (hgood.valid k'), ← Hashmap.slot_zero]
    refine getLoop_vacant (Nat.zero_le j) ?_ ?_
    · rw [Hashmap.vacate_slot, hslot]
      exact hm.not_occupied_vacate index
    · rintro l hl ⟨e, hheld'⟩
      exact hfirst l (by omega) ⟨e, (Hashmap.vacate_holds_iff.mp hheld').2⟩
  rw [hlost, hk']
  exact (h.nonnull hk').symm

end Updates

/-! ## Histories -/

/-- A call on the map, with the key and for an insertion the pointer. -/
inductive HmOp (K : Type*) where
  | insert (k : K) (elem : Nat)
  | remove (k : K)
  | get (k : K)

/-- The map together with what its user expects of it: the pointer of the last
successful insertion of every key that has not been removed since. -/
structure HmState (K : Type*) where
  map : Hashmap
  expected : K → Option Nat

/-- One call.  No key is inserted while it is present and no absent key is removed. -/
inductive HmStep {K : Type*} [DecidableEq K] (hash : K → UInt32) :
    HmState K → HmOp K → HmState K → Prop
  | insert {s : HmState K} {k : K} {elem : Nat} {hm : Hashmap} (habsent : s.expected k = none)
      (hcall : hmInsert hash s.map k elem = (none, hm)) :
      HmStep hash s (.insert k elem) ⟨hm, Function.update s.expected k (some elem)⟩
  | insertError {s : HmState K} {k : K} {elem : Nat} {hm : Hashmap} {e : Errno}
      (habsent : s.expected k = none) (hcall : hmInsert hash s.map k elem = (some e, hm)) :
      HmStep hash s (.insert k elem) ⟨hm, s.expected⟩
  | remove {s : HmState K} {k : K} {hm : Hashmap} {e : Option Errno}
      (hpresent : s.expected k ≠ none) (hcall : hmRemove hash s.map k = .ok (e, hm)) :
      HmStep hash s (.remove k) ⟨hm, Function.update s.expected k none⟩
  | get {s : HmState K} {k : K} : HmStep hash s (.get k) s

/-- `hm_get` returns what is expected, for every key. -/
def HmState.LookupCorrect {K : Type*} (hash : K → UInt32) (s : HmState K) : Prop :=
  ∀ k, hmGet hash s.map k = (s.expected k).getD 0

/-- A call whose removal, if it is one, is safe in the state it is made in. -/
def SafeCall {K : Type*} (hash : K → UInt32) (s : HmState K) : HmOp K → Prop
  | .remove k => SafeRemoval hash s.map s.expected k
  | _ => True

section Histories

variable {K : Type*} [DecidableEq K] {hash : K → UInt32}

/-- A safe call keeps the map in step with the expectations. -/
theorem hmStep_represents (hgood : GoodHash hash) {s t : HmState K} {op : HmOp K}
    (h : Represents hash s.map s.expected) (hstep : HmStep hash s op t)
    (hsafe : SafeCall hash s op) : Represents hash t.map t.expected := by
  cases hstep with
  | insert habsent hcall => exact hmInsert_refines hgood h habsent hcall
  | insertError habsent hcall => exact hmInsert_error hcall ▸ h
  | remove hpresent hcall =>
      obtain ⟨hm, heq, hrep⟩ := hmRemove_refines hgood h hpresent hsafe
      rw [heq] at hcall
      cases hcall
      exact hrep
  | get => exact h

/-- After a call on a map that is in step with the expectations, all lookups are right
exactly when the call was safe. -/
theorem hmStep_lookupCorrect_iff (hgood : GoodHash hash) {s t : HmState K} {op : HmOp K}
    (h : Represents hash s.map s.expected) (hstep : HmStep hash s op t) :
    t.LookupCorrect hash ↔ SafeCall hash s op := by
  constructor
  · intro hcorrect
    cases hstep with
    | insert habsent hcall => trivial
    | insertError habsent hcall => trivial
    | @remove k hm e hpresent hcall =>
        by_contra hcrossing
        obtain ⟨hm', k', heq, hne, hlost⟩ := hmGet_lost_of_crossing hgood h hpresent hcrossing
        rw [heq] at hcall
        cases hcall
        have hlookup := hcorrect k'
        simp only [Function.update_of_ne hne] at hlookup
        exact hlost hlookup
    | get => trivial
  · intro hsafe k
    exact (hmStep_represents hgood h hstep hsafe).hmGet_eq hgood k

/-- In a history whose removals are all safe, every lookup is right, the removal of a
present key never faults or fails, and the next call keeps the lookups right exactly
when it is safe. -/
theorem hm_get_correct (hgood : GoodHash hash) {cap : Nat} {ops : List (HmOp K)} {s : HmState K}
    (hrun : Run (fun s op t => HmStep hash s op t ∧ SafeCall hash s op)
      ⟨hmAllocHashmap cap, fun _ => none⟩ ops s) :
    s.LookupCorrect hash ∧
      (∀ k, s.expected k ≠ none → ∃ hm, hmRemove hash s.map k = .ok (none, hm)) ∧
      ∀ op t, HmStep hash s op t → (t.LookupCorrect hash ↔ SafeCall hash s op) := by
  have hrep : Represents hash s.map s.expected :=
    hrun.invariant (fun s => Represents hash s.map s.expected)
      (fun _ _ _ h hstep => hmStep_represents hgood h hstep.1 hstep.2) (represents_alloc hash cap)
  refine ⟨fun k => hrep.hmGet_eq hgood k, fun k hk => ?_, fun op t hstep => ?_⟩
  · obtain ⟨data, hdata⟩ := Option.ne_none_iff_exists'.mp hk
    obtain ⟨index, -, heq⟩ := hrep.hmRemove_eq hgood hdata
    exact ⟨_, heq⟩
  · exact hmStep_lookupCorrect_iff hgood hrep hstep

end Histories

/-- The numeric keys `2` and `6`, whose hashes start their probes at the same slot of
a map with eight slots. -/
def collidingKeys (b : Bool) : UInt32 := hmHashNum (if b then 6 else 2)

theorem collidingKeys_good : GoodHash collidingKeys where
  injective := by decide
  valid := by decide

/-- Removing the key that was inserted last keeps the other one reachable. -/
theorem hm_get_correct_last_removed :
    ∃ s : HmState Bool, Run (fun s op t => HmStep collidingKeys s op t ∧ SafeCall collidingKeys s op)
        ⟨hmAllocHashmap 8, fun _ => none⟩
        [.insert false 100, .insert true 200, .remove true] s ∧
      s.expected false = some 100 ∧ s.LookupCorrect collidingKeys := by
  have hrun : ∃ s : HmState Bool,
      Run (fun s op t => HmStep collidingKeys s op t ∧ SafeCall collidingKeys s op)
        ⟨hmAllocHashmap 8, fun _ => none⟩
        [.insert false 100, .insert true 200, .remove true] s ∧ s.expected false = some 100 := by
    refine ⟨_, ((Run.nil.snoc ⟨.insert rfl rfl, trivial⟩).snoc ⟨.insert rfl rfl, trivial⟩).snoc
      ⟨.remove (by decide) rfl, ?_⟩, rfl⟩
    intro index data hholds k hne hpresent hcross
    obtain ⟨i, -, -, hfirst, j, hj, -⟩ := hcross
    have hk : k = false := by simpa using hne
    subst hk
    exact hfirst 0 (by omega) ⟨100, rfl⟩
  obtain ⟨s, hrun, hexpected⟩ := hrun
  exact ⟨s, hrun, hexpected, (hm_get_correct collidingKeys_good hrun).1⟩

/-- Removing the key that was inserted first makes the other one unreachable. -/
theorem hm_get_loses_colliding_key :
    ∃ s : HmState Bool, GoodHash collidingKeys ∧ Run (HmStep collidingKeys)
        ⟨hmAllocHashmap 8, fun _ => none⟩
        [.insert false 100, .insert true 200, .remove false] s ∧
      s.expected true = some 200 ∧ hmGet collidingKeys s.map true = 0 ∧
      ¬ s.LookupCorrect collidingKeys := by
  refine ⟨_, collidingKeys_good,
    ((Run.nil.snoc (.insert rfl rfl)).snoc (.insert rfl rfl)).snoc (.remove (by decide) rfl),
    rfl, rfl, ?_⟩
  intro h
  have := h true
  revert this
  decide

end Lib
end Micael
