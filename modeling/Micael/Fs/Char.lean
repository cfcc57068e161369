import Mathlib.Tactic
import Micael.Lib.Bitmap

/-!
# The numbers of character devices

`cdev_alloc` takes the first minor number whose bit is not set in a bitmap of 256 bits that all majors
share.  Nothing sets the bit, so that every device gets the minor number 0.

A device is what `cdev_alloc` returned and `cdev_dealloc` was not called for.  The cache of the devices has
an entry or not; `devfs_unregister_cdev` does nothing.

Main results:

- Theorem {lit}`Cdevs.Inv.after`: no call sets a bit, and every device has the minor number 0.
- Theorem {lit}`CdevCall.right_iff`: when a call keeps the numbers apart.
- Theorem {lit}`cdev_numbers_unique_iff`: the same for a run.
-/

namespace Micael
namespace Fs

open Lib

/-! ## Device numbers -/

/-- `MAKE_DEV`, as a `dev_t`. -/
def makeDev (major minor : Int32) : UInt32 :=
  (((major &&& 0xfff) <<< 20) ||| (minor &&& 0xfffff)).toUInt32

/-- `DEV_MINOR`. -/
def devMinor (dev : UInt32) : UInt32 := dev &&& 0xfffff

/-- A `cdev_t`: its name, number and operations, and the major number it was asked for with. -/
structure Cdev where
  name : Nat
  dev : UInt32
  ops : Nat
  major : Int32
deriving DecidableEq, Repr

/-- `bm_devnums`, and the devices that are live. -/
structure Cdevs where
  bm : Bitmap
  live : List Cdev

/-- What `cdev_init` leaves: 256 bits that are not set. -/
def noCdevs : Cdevs := ⟨⟨256, fun _ => 0⟩, []⟩

/-- `cdev_alloc_devnum`. -/
def cdevAllocDevnum (bm : Bitmap) : Except BmError Nat := bmFindFirstUnset bm 0 (bm.len - 1)

/-- `cdev_alloc`; null pointers are `none`.  `entry` says whether the cache has an entry. -/
def cdevAlloc (name ops : Option Nat) (major : Int32) (entry : Bool) (s : Cdevs) :
    Option Cdev × Cdevs :=
  match name, ops with
  | some name, some ops =>
      match cdevAllocDevnum s.bm with
      | .error _ => (none, s)
      | .ok minor =>
          if entry then
            let dev := ⟨name, makeDev major (Int32.ofNat minor), ops, major⟩
            (some dev, { s with live := s.live ++ [dev] })
          else (none, { s with bm := bmAfter s.bm (bmUnsetBit s.bm minor) })
  | _, _ => (none, s)

/-- `cdev_dealloc` for the `i`th live device, or for null when there are not so many. -/
def cdevDealloc (i : Nat) (s : Cdevs) : Cdevs :=
  match s.live[i]? with
  | none => s
  | some dev => ⟨bmAfter s.bm (bmUnsetBit s.bm (devMinor dev.dev).toNat), s.live.eraseIdx i⟩

/-! ## What is promised of the numbers -/

/-- A call. -/
inductive CdevCall
  | alloc (name ops : Option Nat) (major : Int32) (entry : Bool)
  | dealloc (i : Nat)

/-- What a call leaves. -/
def CdevCall.after (s : Cdevs) : CdevCall → Cdevs
  | .alloc name ops major entry => (cdevAlloc name ops major entry s).2
  | .dealloc i => cdevDealloc i s

/-- Two live devices with the same major have different numbers. -/
def Cdevs.Unique (s : Cdevs) : Prop :=
  s.live.Pairwise fun d d' => d.major = d'.major → d.dev ≠ d'.dev

/-- A call leaves different numbers, and a device is refused only when there are 256 or the cache has no
entry. -/
def CdevCall.Right (s : Cdevs) (call : CdevCall) : Prop :=
  (call.after s).Unique ∧
    match call with
    | .alloc name ops major entry =>
        (cdevAlloc name ops major entry s).1 = none → 256 ≤ s.live.length ∨ entry = false
    | .dealloc _ => True

/-- All calls of a run are right. -/
def CdevRunRight : Cdevs → List CdevCall → Prop
  | _, [] => True
  | s, call :: calls => call.Right s ∧ CdevRunRight (call.after s) calls

/-- The condition for a call: a device that has a name, operations and an entry of the cache has a major
that no live device has, and nothing less is asked for before there is a reason to refuse it. -/
def CdevCall.Kept (s : Cdevs) : CdevCall → Prop
  | .alloc (some _) (some _) major entry => entry = true → ∀ d ∈ s.live, d.major ≠ major
  | .alloc _ _ _ entry => 256 ≤ s.live.length ∨ entry = false
  | .dealloc _ => True

/-- The condition for every call of a run. -/
def CdevRunKept : Cdevs → List CdevCall → Prop
  | _, [] => True
  | s, call :: calls => call.Kept s ∧ CdevRunKept (call.after s) calls

/-! ## The invariant -/

/-- No bit is set, and every device has the minor number 0. -/
structure Cdevs.Inv (s : Cdevs) : Prop where
  len : s.bm.len = 256
  clear : ∀ n, s.bm.bit n = false
  minor : ∀ d ∈ s.live, d.dev = makeDev d.major 0

section Calls

variable {s : Cdevs} {name ops : Nat} {major : Int32} {entry : Bool}

theorem noCdevs_inv : noCdevs.Inv where
  len := rfl
  clear n := BitVec.getLsbD_zero
  minor d hd := by cases hd

/-- The search finds the first bit. -/
theorem Cdevs.Inv.devnum (h : s.Inv) : cdevAllocDevnum s.bm = .ok 0 := by
  have hspec : FirstRun s.bm 0 255 1 false (bmFindFirst s.bm 0 255 false) :=
    bmFindFirst_spec (by omega) (by rw [h.len]; omega)
  have hrun : s.bm.RunAt 1 false 0 := fun n _ _ => h.clear n
  rw [cdevAllocDevnum, h.len, bmFindFirstUnset]
  cases hfind : bmFindFirst s.bm 0 255 false with
  | error e =>
      rw [hfind] at hspec
      cases e with
      | notFound => exact absurd (hspec 0 le_rfl hrun) (by omega)
      | range => exact hspec.elim
  | ok n =>
      rw [hfind] at hspec
      have hfirst := hspec.2.2.2 0 le_rfl hrun
      rw [Nat.le_zero.mp hfirst]

/-- `bm_unset_bit` on a bitmap without a set bit. -/
theorem Cdevs.Inv.unsetBit (h : s.Inv) (n : Nat) :
    (bmAfter s.bm (bmUnsetBit s.bm n)).len = 256 ∧
      ∀ m, (bmAfter s.bm (bmUnsetBit s.bm n)).bit m = false := by
  rw [bmUnsetBit]
  split
  · exact ⟨h.len, h.clear⟩
  · refine ⟨h.len, fun m => ?_⟩
    rw [bmAfter, Bitmap.bit_unset, h.clear, Bool.false_and]

/-- A device that the cache has an entry for. -/
theorem cdevAlloc_entry (h : s.Inv) (name ops : Nat) (major : Int32) :
    cdevAlloc (some name) (some ops) major true s =
      (some ⟨name, makeDev major 0, ops, major⟩,
        { s with live := s.live ++ [⟨name, makeDev major 0, ops, major⟩] }) := by
  rw [cdevAlloc, h.devnum]
  rfl

/-- A device that the cache has no entry for. -/
theorem cdevAlloc_full (h : s.Inv) (name ops : Nat) (major : Int32) :
    cdevAlloc (some name) (some ops) major false s =
      (none, { s with bm := bmAfter s.bm (bmUnsetBit s.bm 0) }) := by
  rw [cdevAlloc, h.devnum]
  rfl

/-- No call sets a bit, and every device has the minor number 0. -/
theorem Cdevs.Inv.after (h : s.Inv) (call : CdevCall) : (call.after s).Inv := by
  cases call with
  | alloc name ops major entry =>
      rw [CdevCall.after]
      rcases name with _ | name
      · exact h
      · rcases ops with _ | ops
        · exact h
        · cases entry with
          | false =>
              rw [cdevAlloc_full h]
              obtain ⟨hlen, hclear⟩ := h.unsetBit 0
              exact ⟨hlen, hclear, h.minor⟩
          | true =>
              rw [cdevAlloc_entry h]
              refine ⟨h.len, h.clear, ?_⟩
              intro d hd
              rcases List.mem_append.mp hd with hold | hnew
              · exact h.minor d hold
              · rw [List.mem_singleton.mp hnew]
  | dealloc i =>
      rw [CdevCall.after, cdevDealloc]
      cases hdev : s.live[i]? with
      | none => exact h
      | some dev =>
          obtain ⟨hlen, hclear⟩ := h.unsetBit (devMinor dev.dev).toNat
          exact ⟨hlen, hclear, fun d hd => h.minor d (List.mem_of_mem_eraseIdx hd)⟩

/-- A new device keeps the numbers apart when no live device has its major. -/
theorem Cdevs.Unique.append_iff (h : s.Inv) (hunique : s.Unique) (name ops : Nat) (major : Int32) :
    Cdevs.Unique { s with live := s.live ++ [⟨name, makeDev major 0, ops, major⟩] } ↔
      ∀ d ∈ s.live, d.major ≠ major := by
  rw [Cdevs.Unique, List.pairwise_append]
  constructor
  · rintro ⟨-, -, hnew⟩ d hd hmajor
    have hdiffer := hnew d hd _ (List.mem_singleton_self _) hmajor
    rw [h.minor d hd, hmajor] at hdiffer
    exact hdiffer rfl
  · intro hnew
    refine ⟨hunique, List.pairwise_singleton _ _, ?_⟩
    intro d hd d' hd' hmajor
    rw [List.mem_singleton.mp hd'] at hmajor
    exact absurd hmajor (hnew d hd)

/-- When a call is right. -/
theorem CdevCall.right_iff (h : s.Inv) (hunique : s.Unique) (call : CdevCall) :
    call.Right s ↔ call.Kept s := by
  cases call with
  | alloc name ops major entry =>
      rcases name with _ | name
      · exact ⟨fun hright => hright.2 rfl, fun hkept => ⟨hunique, fun _ => hkept⟩⟩
      · rcases ops with _ | ops
        · exact ⟨fun hright => hright.2 rfl, fun hkept => ⟨hunique, fun _ => hkept⟩⟩
        · rw [CdevCall.Right, CdevCall.Kept, CdevCall.after]
          cases entry with
          | false =>
              rw [cdevAlloc_full h]
              refine iff_of_true ⟨hunique, fun _ => Or.inr rfl⟩ ?_
              intro hfalse
              cases hfalse
          | true =>
              rw [cdevAlloc_entry h, Cdevs.Unique.append_iff h hunique]
              constructor
              · exact fun hright _ => hright.1
              · intro hkept
                refine ⟨hkept rfl, ?_⟩
                intro hnone
                cases hnone
  | dealloc i =>
      refine iff_of_true ⟨?_, trivial⟩ trivial
      rw [CdevCall.after, cdevDealloc]
      cases hdev : s.live[i]? with
      | none => exact hunique
      | some dev => exact hunique.sublist (List.eraseIdx_sublist _ _)

end Calls

/-- From different numbers, all calls of a run are right just when each meets its condition. -/
theorem cdevRunRight_iff {s : Cdevs} (h : s.Inv) (hunique : s.Unique) (calls : List CdevCall) :
    CdevRunRight s calls ↔ CdevRunKept s calls := by
  induction calls generalizing s with
  | nil => exact Iff.rfl
  | cons call calls ih =>
      rw [CdevRunRight, CdevRunKept, ← call.right_iff h hunique]
      exact and_congr_right fun hright => ih (h.after call) hright.1

/-- In every run of `cdev_alloc` and `cdev_dealloc`, live devices with the same major have different
numbers and a device is refused for one of the two reasons only, just when no device is asked for with the
major of a live one, and none without a name or operations. -/
theorem cdev_numbers_unique_iff (calls : List CdevCall) :
    CdevRunRight noCdevs calls ↔ CdevRunKept noCdevs calls :=
  cdevRunRight_iff noCdevs_inv List.Pairwise.nil calls

/-- A terminal and the keyboard, both with the major 0, have the same number. -/
theorem two_devices_one_number :
    (cdevAlloc (some 2) (some 4) 0 true (cdevAlloc (some 1) (some 3) 0 true noCdevs).2).2.live =
      [⟨1, 0, 3, 0⟩, ⟨2, 0, 4, 0⟩] ∧
      ¬ CdevRunRight noCdevs [.alloc (some 1) (some 3) 0 true, .alloc (some 2) (some 4) 0 true] := by
  have hlive : (cdevAlloc (some 2) (some 4) 0 true
      (cdevAlloc (some 1) (some 3) 0 true noCdevs).2).2.live = [⟨1, 0, 3, 0⟩, ⟨2, 0, 4, 0⟩] := by
    decide
  refine ⟨hlive, ?_⟩
  rintro ⟨-, ⟨hunique, -⟩, -⟩
  change List.Pairwise _ (cdevAlloc (some 2) (some 4) 0 true
    (cdevAlloc (some 1) (some 3) 0 true noCdevs).2).2.live at hunique
  rw [hlive] at hunique
  revert hunique
  decide

end Fs
end Micael
