import Mathlib.Tactic

/-!
# Byte-addressed memory

Memory is a total function from addresses to bytes, so that what lies outside the
bytes a program owns is arbitrary but fixed.  Numbers are stored in little-endian
order, as many bytes wide as the access says.

Main results:

- Theorem {lit}`Memory.load_store_self`: a number is read back, modulo its width.
- Theorem {lit}`Memory.load_store_of_disjoint`: a store changes no number that shares no byte
  with it.
- Theorem {lit}`Memory.load_congr`: a number depends on its own bytes only.
- Theorem {lit}`Memory.load_window`: a shorter number at the bytes of a longer one.
- Theorem {lit}`Memory.bytes_add`: a window of bytes is the bytes of its two parts.
-/

namespace Micael
namespace Foundation

/-- The contents of every byte address. -/
def Memory : Type := Nat → UInt8

namespace Memory

/-- The little-endian number of `n` bytes at `a`. -/
def load (mem : Memory) (a : Nat) : Nat → Nat
  | 0 => 0
  | n + 1 => (mem a).toNat + 256 * mem.load (a + 1) n

/-- Store the `n` low bytes of `v` at `a`. -/
def store (mem : Memory) (a n v : Nat) : Memory := fun x =>
  if a ≤ x ∧ x < a + n then UInt8.ofNat (v / 256 ^ (x - a)) else mem x

/-- Set the `n` bytes at `a` to `b`. -/
def fill (mem : Memory) (a n : Nat) (b : UInt8) : Memory := fun x =>
  if a ≤ x ∧ x < a + n then b else mem x

/-- Two memories agree on the bytes of a set of addresses. -/
def Agree (s : Set Nat) (mem mem' : Memory) : Prop := ∀ x ∈ s, mem x = mem' x

variable {mem mem' mem'' : Memory} {a b m n v : Nat}

theorem Agree.trans {s : Set Nat} (h : Agree s mem mem') (h' : Agree s mem' mem'') :
    Agree s mem mem'' :=
  fun x hx => (h x hx).trans (h' x hx)

theorem Agree.mono {s t : Set Nat} (h : Agree s mem mem') (hts : t ⊆ s) : Agree t mem mem' :=
  fun x hx => h x (hts hx)

theorem load_lt (mem : Memory) (a n : Nat) : mem.load a n < 256 ^ n := by
  induction n generalizing a with
  | zero => simp [load]
  | succ n ih =>
      have hbyte : (mem a).toNat < 256 := (mem a).toNat_lt
      have hrest := ih (a + 1)
      rw [load, pow_succ]
      omega

/-- Numbers at different addresses whose bytes are the same. -/
theorem load_eq_of_bytes (h : ∀ i < n, mem (a + i) = mem' (b + i)) : mem.load a n = mem'.load b n := by
  induction n generalizing a b with
  | zero => rfl
  | succ n ih =>
      have hfirst : mem a = mem' b := h 0 (by omega)
      have hrest : mem.load (a + 1) n = mem'.load (b + 1) n := by
        apply ih
        intro i hi
        have hnext := h (i + 1) (by omega)
        rwa [Nat.add_comm i 1, ← Nat.add_assoc, ← Nat.add_assoc] at hnext
      rw [load, load, hfirst, hrest]

/-- A number depends on its own bytes only. -/
theorem load_congr (h : Agree (Set.Ico a (a + n)) mem mem') : mem.load a n = mem'.load a n := by
  apply load_eq_of_bytes
  intro i hi
  exact h (a + i) ⟨by omega, by omega⟩

/-- A number is determined by its digits. -/
theorem load_of_digits (h : ∀ i < n, (mem (a + i)).toNat = v / 256 ^ i % 256) :
    mem.load a n = v % 256 ^ n := by
  induction n generalizing a v with
  | zero => simp [load, Nat.mod_one]
  | succ n ih =>
      have hlow : (mem a).toNat = v % 256 := by simpa using h 0 (by omega)
      have hrest : mem.load (a + 1) n = v / 256 % 256 ^ n := by
        apply ih
        intro i hi
        have hdigit := h (i + 1) (by omega)
        rw [Nat.add_assoc, Nat.add_comm 1 i, hdigit, Nat.div_div_eq_div_mul, pow_succ']
      rw [load, hlow, hrest, pow_succ', Nat.mod_mul]

/-- The digits of a number are its bytes. -/
theorem load_digit {i : Nat} (h : i < n) : mem.load a n / 256 ^ i % 256 = (mem (a + i)).toNat := by
  induction n generalizing a i with
  | zero => exact absurd h (Nat.not_lt_zero i)
  | succ n ih =>
      have hbyte : (mem a).toNat < 256 := (mem a).toNat_lt
      cases i with
      | zero => rw [load, pow_zero, Nat.div_one, Nat.add_mul_mod_self_left, Nat.mod_eq_of_lt hbyte, Nat.add_zero]
      | succ i =>
          have hrest : ((mem a).toNat + 256 * mem.load (a + 1) n) / 256 = mem.load (a + 1) n := by omega
          rw [load, pow_succ', ← Nat.div_div_eq_div_mul, hrest, ih (by omega), Nat.add_assoc,
            Nat.add_comm 1 i]

/-- A shorter number at the bytes of a longer one. -/
theorem load_window {k : Nat} (h : k + m ≤ n) :
    mem.load a n / 256 ^ k % 256 ^ m = mem.load (a + k) m := by
  refine (load_of_digits fun i hi => ?_).symm
  rw [Nat.div_div_eq_div_mul, ← pow_add, load_digit (by omega), Nat.add_assoc]

theorem store_of_outside {x : Nat} (h : x < a ∨ a + n ≤ x) : mem.store a n v x = mem x := by
  rw [store, if_neg (by omega)]

theorem fill_of_outside {x : Nat} {byte : UInt8} (h : x < a ∨ a + n ≤ x) :
    mem.fill a n byte x = mem x := by
  rw [fill, if_neg (by omega)]

/-- What is stored is read back, modulo the width of the access. -/
theorem load_store_self : (mem.store a n v).load a n = v % 256 ^ n := by
  apply load_of_digits
  intro i hi
  rw [store, if_pos ⟨by omega, by omega⟩, Nat.add_sub_cancel_left, UInt8.toNat_ofNat']

theorem load_store_of_disjoint (h : b + m ≤ a ∨ a + n ≤ b) :
    (mem.store a n v).load b m = mem.load b m := by
  apply load_congr
  intro x hx
  rw [Set.mem_Ico] at hx
  exact store_of_outside (by omega)

/-- A store leaves all bytes but its own. -/
theorem agree_store {s : Set Nat} (h : ∀ x ∈ s, x < a ∨ a + n ≤ x) :
    Agree s (mem.store a n v) mem :=
  fun x hx => store_of_outside (h x hx)

theorem agree_fill {s : Set Nat} {byte : UInt8} (h : ∀ x ∈ s, x < a ∨ a + n ≤ x) :
    Agree s (mem.fill a n byte) mem :=
  fun x hx => fill_of_outside (h x hx)

/-- The `n` bytes at `a`, in order. -/
def bytes (mem : Memory) (a n : Nat) : List UInt8 := (List.range n).map fun i => mem (a + i)

@[simp]
theorem length_bytes : (mem.bytes a n).length = n := by
  simp [bytes]

@[simp]
theorem bytes_zero : mem.bytes a 0 = [] :=
  rfl

/-- A window depends on its own bytes only. -/
theorem bytes_eq_of_apply (h : ∀ i < n, mem (a + i) = mem' (b + i)) :
    mem.bytes a n = mem'.bytes b n := by
  refine List.map_congr_left fun i hi => ?_
  exact h i (List.mem_range.mp hi)

/-- A window is what lies in its two parts. -/
theorem bytes_add : mem.bytes a (n + m) = mem.bytes a n ++ mem.bytes (a + n) m := by
  simp [bytes, List.range_add, Nat.add_assoc, Function.comp_def]

/-- The rest of a window. -/
theorem drop_bytes (k : Nat) : (mem.bytes a n).drop k = mem.bytes (a + k) (n - k) := by
  rcases Nat.le_total k n with hle | hle
  · obtain ⟨m, rfl⟩ := Nat.exists_eq_add_of_le hle
    rw [bytes_add, List.drop_left' length_bytes, Nat.add_sub_cancel_left]
  · rw [List.drop_of_length_le (by simpa using hle), Nat.sub_eq_zero_of_le hle, bytes_zero]

/-- The beginning of a window. -/
theorem take_bytes {k : Nat} (hk : k ≤ n) : (mem.bytes a n).take k = mem.bytes a k := by
  obtain ⟨m, rfl⟩ := Nat.exists_eq_add_of_le hk
  rw [bytes_add, List.take_left' length_bytes]

end Memory

end Foundation
end Micael
