import Micael.Lib.HashmapHistory

/-!
# Numeric keys

A map compares hashes and not keys.  `hm_hash_num` gives different hashes to different numbers, so that an item that
is found under a number was inserted under this number.  One number has the reserved hash and cannot be a key.

Main results:

- Theorem {lit}`HmHistory.Tracks.keepsApart`: an injective hash confuses no keys, in any history.
- Theorem {lit}`reserved_refused`: the three calls refuse a key with the reserved hash.
- Theorem {lit}`numeric_keys_collision_free`: the numbers as keys.
-/

namespace Micael
namespace Lib

open Foundation

section Keys

variable {K : Type*} {hash : K → UInt32}

/-- What is found or removed under a key stands in a slot that was used last for this key. -/
structure HmHistory.KeepsApart (hash : K → UInt32) (s : HmHistory K) : Prop where
  get : ∀ k, hmGet hash s.map k ≠ 0 →
    ∃ index, s.users index = some k ∧ s.map.Holds index (hash k) (hmGet hash s.map k)
  remove : ∀ k hm, hmRemove hash s.map k = .ok (none, hm) →
    ∃ index, s.users index = some k ∧ hm = s.map.vacate index

theorem hmHistoryStart_tracks (K : Type*) (hash : K → UInt32) (cap : Nat) :
    (hmHistoryStart K cap).Tracks hash :=
  fun _ => rfl

/-- A slot whose item has the hash of a key was used for this key. -/
theorem HmHistory.Tracks.user {s : HmHistory K} (h : s.Tracks hash) (hinj : Function.Injective hash)
    {index : Nat} {item : HmItem} {k : K} (helem : s.map.elem index = some item) (hkey : item.key = hash k) :
    s.users index = some k := by
  have htrack := h index
  rw [helem, Option.map_some, hkey] at htrack
  obtain ⟨user, huser, hsame⟩ := Option.map_eq_some_iff.mp htrack.symm
  rw [huser, hinj hsame]

/-- A removal that succeeds vacates a slot whose item has the hash. -/
theorem hmRemove_some {hm hm' : Hashmap} {k : K} (hcall : hmRemove hash hm k = .ok (none, hm')) :
    ∃ index item, hm.elem index = some item ∧ item.key = hash k ∧ hm' = hm.vacate index := by
  unfold hmRemove at hcall
  by_cases hmax : hash k = uint32Max
  · rw [if_pos hmax] at hcall
    cases hcall
  · rw [if_neg hmax] at hcall
    obtain ⟨found, hloop, hend⟩ := Halt.bind_eq_ok.mp hcall
    cases found with
    | none => cases hend
    | some index =>
        obtain ⟨item, helem, hkey⟩ := removeLoop_some hloop
        exact ⟨index, item, helem, hkey, (congrArg Prod.snd (Except.ok.inj hend)).symm⟩

/-- An injective hash confuses no keys. -/
theorem HmHistory.Tracks.keepsApart {s : HmHistory K} (h : s.Tracks hash) (hinj : Function.Injective hash) :
    s.KeepsApart hash := by
  constructor
  case get =>
    intro k hget
    obtain ⟨-, i, hfound⟩ := foundAt_of_hmGet hget
    exact ⟨_, h.user hinj hfound.holds rfl, hfound.holds⟩
  case remove =>
    intro k hm hcall
    obtain ⟨index, item, helem, hkey, hvacate⟩ := hmRemove_some hcall
    exact ⟨index, h.user hinj helem hkey, hvacate⟩

/-- `hm_insert`, `hm_remove` and `hm_get` with this key change nothing, and report an error or find nothing. -/
structure Refused (hash : K → UInt32) (k : K) : Prop where
  insert : ∀ hm elem, ∃ e, hmInsert hash hm k elem = (some e, hm)
  remove : ∀ hm, hmRemove hash hm k = .ok (some .einval, hm)
  get : ∀ hm, hmGet hash hm k = 0

/-- A key with the reserved hash. -/
theorem reserved_refused {k : K} (hmax : hash k = uint32Max) : Refused hash k := by
  constructor
  case insert =>
    intro hm elem
    rw [hmInsert]
    split_ifs
    · exact ⟨_, rfl⟩
    · exact ⟨_, rfl⟩
    · exact ⟨_, rfl⟩
  case remove =>
    intro hm
    rw [hmRemove, if_pos hmax]
  case get =>
    intro hm
    rw [hmGet, if_pos hmax]

end Keys

/-! ## Numbers -/

/-- The number with the reserved hash. -/
def reservedNum : UInt32 := 0x58d5ab82

theorem hmHashNum_eq_max_iff (a : UInt32) : hmHashNum a = uint32Max ↔ a = reservedNum := by
  have hmax : hmHashNum reservedNum = uint32Max := by decide
  rw [← hmax]
  exact hmHashNum_injective.eq_iff

/-- Different numbers have different hashes, a map with numbers as keys confuses no two of them in any history, and
exactly one number has the reserved hash and is refused. -/
theorem numeric_keys_collision_free :
    (∀ a b, hmHashNum a = hmHashNum b → a = b) ∧
      (∀ cap ops s, Run (HmHistoryStep hmHashNum) (hmHistoryStart UInt32 cap) ops s →
        s.KeepsApart hmHashNum) ∧
      ∃ a, (∀ b, hmHashNum b = uint32Max ↔ b = a) ∧ Refused hmHashNum a := by
  refine ⟨fun a b hsame => hmHashNum_injective hsame, ?_, reservedNum, hmHashNum_eq_max_iff, ?_⟩
  · intro cap ops s hrun
    have htracks : s.Tracks hmHashNum :=
      hrun.invariant (HmHistory.Tracks hmHashNum) (fun _ _ _ h hstep => h.step hstep)
        (hmHistoryStart_tracks UInt32 hmHashNum cap)
    exact htracks.keepsApart hmHashNum_injective
  · exact reserved_refused ((hmHashNum_eq_max_iff reservedNum).mpr rfl)

end Lib
end Micael
