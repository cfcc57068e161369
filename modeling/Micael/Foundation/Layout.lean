import Micael.Foundation.Memory

/-!
# Byte strings in memory

A string of bytes lies in memory from an address on.  Where a string was put together from parts, the
parts lie one behind the other, and a number that was written in little-endian order is read back.

Main results:

- Theorem {lit}`Memory.holdsAt_append`: two strings, one behind the other.
- Theorem {lit}`Memory.HoldsAt.flatMap`: one part of a string that was put together from many.
- Theorem {lit}`Memory.HoldsAt.load`: a number in a string.
- Theorem {lit}`Memory.holdsAt_write`: a string lies where it was written.
-/

namespace Micael
namespace Foundation

/-- The `n` low bytes of `v`, the lowest one first. -/
def littleEndian (n v : Nat) : List UInt8 := (List.range n).map fun i => UInt8.ofNat (v / 256 ^ i)

@[simp]
theorem length_littleEndian (n v : Nat) : (littleEndian n v).length = n := by
  simp [littleEndian]

namespace Memory

/-- The string lies at the address. -/
def HoldsAt (mem : Memory) (a : Nat) (l : List UInt8) : Prop := mem.bytes a l.length = l

instance (mem : Memory) (a : Nat) (l : List UInt8) : Decidable (mem.HoldsAt a l) :=
  inferInstanceAs (Decidable (_ = _))

variable {mem : Memory} {a n v : Nat} {l l' : List UInt8}

theorem holdsAt_append :
    mem.HoldsAt a (l ++ l') ↔ mem.HoldsAt a l ∧ mem.HoldsAt (a + l.length) l' := by
  rw [HoldsAt, HoldsAt, HoldsAt, List.length_append, bytes_add]
  constructor
  · intro h
    exact List.append_inj h length_bytes
  · intro h
    rw [h.1, h.2]

/-- The byte at a position of a string. -/
theorem HoldsAt.apply (h : mem.HoldsAt a l) {i : Nat} (hi : i < l.length) : mem (a + i) = l[i] := by
  have hget : (mem.bytes a l.length)[i]? = l[i]? := congrArg (·[i]?) h
  rw [List.getElem?_eq_getElem hi, bytes, List.getElem?_map, List.getElem?_range hi] at hget
  exact Option.some.inj hget

/-- A number that lies in memory is read back, modulo its width. -/
theorem HoldsAt.load (h : mem.HoldsAt a (littleEndian n v)) : mem.load a n = v % 256 ^ n := by
  apply load_of_digits
  intro i hi
  have hbyte := h.apply (i := i) (by simpa using hi)
  rw [hbyte]
  simp [littleEndian]

/-- The part of a string that comes from one element of a list lies behind the parts of the elements
before it. -/
theorem HoldsAt.flatMap {α : Type} {f : α → List UInt8} {list : List α}
    (h : mem.HoldsAt a (list.flatMap f)) {i : Nat} (hi : i < list.length) :
    mem.HoldsAt (a + ((list.take i).map fun x => (f x).length).sum) (f list[i]) := by
  have hsplit : list.flatMap f =
      (list.take i).flatMap f ++ (f list[i] ++ (list.drop (i + 1)).flatMap f) := by
    calc
      list.flatMap f = (list.take i ++ list.drop i).flatMap f := by rw [List.take_append_drop]
      _ = _ := by rw [List.drop_eq_getElem_cons hi, List.flatMap_append, List.flatMap_cons]
  rw [hsplit, holdsAt_append, holdsAt_append, List.length_flatMap] at h
  exact h.2.1

/-- Write a string at an address. -/
def write (mem : Memory) (a : Nat) (l : List UInt8) : Memory := fun x =>
  if a ≤ x then l[x - a]?.getD (mem x) else mem x

theorem write_of_outside {x : Nat} (h : x < a ∨ a + l.length ≤ x) : mem.write a l x = mem x := by
  unfold write
  split
  · have hpast : l.length ≤ x - a := by omega
    rw [List.getElem?_eq_none hpast, Option.getD_none]
  · rfl

/-- A string lies where it was written. -/
theorem holdsAt_write : (mem.write a l).HoldsAt a l := by
  apply List.ext_getElem length_bytes
  intro i _ hi
  simp [bytes, write, hi]

/-- A string that lies in memory still lies there when its own bytes have not changed. -/
theorem HoldsAt.congr {mem' : Memory} (h : mem.HoldsAt a l)
    (hsame : ∀ x, a ≤ x → x < a + l.length → mem' x = mem x) : mem'.HoldsAt a l := by
  have hbytes : mem'.bytes a l.length = mem.bytes a l.length := by
    apply bytes_eq_of_apply
    intro i hi
    exact hsame (a + i) (by omega) (by omega)
  exact hbytes.trans h

end Memory

end Foundation
end Micael
