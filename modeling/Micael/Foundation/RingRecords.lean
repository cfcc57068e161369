import Micael.Foundation.Layout

/-!
# Records in a ring of bytes

A ring of `n` bytes lies between a writer and a reader and takes records of different lengths.  A record
begins where the span of the one before it ends.  It is stored in one piece, so that the last record of a
turn runs over the end of the ring, into bytes behind it that no other record uses.  Positions are counted
on without wrapping; the byte of a position is its remainder.

Main results:

- Theorem {lit}`RecordFormat.windows_disjoint`: records less than one turn apart share no byte, although
  they are stored in one piece.
- Theorem {lit}`RecordFormat.Stored.put`: writing a record into a ring with room keeps the records in it.
- Theorem {lit}`RecordFormat.wrap_add`: how a reader that wraps once gets to the next record.
-/

namespace Micael
namespace Foundation

/-- How records are stored: the bytes of each, and how far it is to the next one. -/
structure RecordFormat (ρ : Type*) where
  bytes : ρ → List UInt8
  span : ρ → Nat
  fits : ∀ r, (bytes r).length ≤ span r

namespace RecordFormat

variable {ρ : Type*} (fmt : RecordFormat ρ)

/-- How far several records reach. -/
def total (records : List ρ) : Nat := (records.map fmt.span).sum

@[simp]
theorem total_nil : fmt.total [] = 0 :=
  rfl

@[simp]
theorem total_cons (r : ρ) (records : List ρ) :
    fmt.total (r :: records) = fmt.span r + fmt.total records := by
  simp [total]

@[simp]
theorem total_append (records records' : List ρ) :
    fmt.total (records ++ records') = fmt.total records + fmt.total records' := by
  simp [total]

/-- The records lie in the ring of `n` bytes at `base`, from a position on. -/
def Stored (mem : Memory) (base n : Nat) : Nat → List ρ → Prop
  | _, [] => True
  | a, r :: records =>
      mem.HoldsAt (base + a % n) (fmt.bytes r) ∧ Stored mem base n (a + fmt.span r) records

variable {fmt} {mem mem' : Memory} {base n a b s t : Nat} {r : ρ} {records : List ρ}

/-- One more record, behind the others. -/
theorem stored_concat :
    fmt.Stored mem base n a (records ++ [r]) ↔ fmt.Stored mem base n a records ∧
      mem.HoldsAt (base + (a + fmt.total records) % n) (fmt.bytes r) := by
  induction records generalizing a with
  | nil => simp [Stored]
  | cons first records ih =>
      rw [List.cons_append, Stored, Stored, ih, total_cons, ← Nat.add_assoc, and_assoc]

/-- Records less than one turn apart share no byte, although they are stored in one piece: the later one
either lies behind the earlier one, or it has wrapped and ends in front of it. -/
theorem windows_disjoint (hab : a + s ≤ b) (hturn : b + t ≤ a + n) :
    a % n + s ≤ b % n ∨ b % n + t ≤ a % n := by
  have ha : n * (a / n) + a % n = a := Nat.div_add_mod a n
  have hb : n * (b / n) + b % n = b := Nat.div_add_mod b n
  have hlap : a / n ≤ b / n := Nat.div_le_div_right (by omega)
  rcases Nat.lt_or_eq_of_le hlap with hlater | hsame
  · -- the later record has wrapped
    right
    have hnext : n * (a / n + 1) ≤ n * (b / n) := Nat.mul_le_mul_left n hlater
    rw [Nat.mul_add, Nat.mul_one] at hnext
    omega
  · left
    rw [← hsame] at hb
    omega

/-- Writing behind the records, less than one turn from the first of them, keeps them. -/
theorem Stored.keep (h : fmt.Stored mem base n a records) (hab : a + fmt.total records ≤ b)
    (hturn : b + t ≤ a + n)
    (hsame : ∀ x, x < base + b % n ∨ base + b % n + t ≤ x → mem' x = mem x) :
    fmt.Stored mem' base n a records := by
  induction records generalizing a with
  | nil => trivial
  | cons first records ih =>
      obtain ⟨hfirst, hrest⟩ := h
      rw [total_cons, ← Nat.add_assoc] at hab
      constructor
      · have hfits := fmt.fits first
        have hdisjoint := windows_disjoint (s := fmt.span first) (by omega) hturn
        apply hfirst.congr
        intro x hlow hhigh
        exact hsame x (by omega)
      · exact ih hrest hab (by omega)

/-- Writing a record into a ring with room keeps the records in it. -/
theorem Stored.put (h : fmt.Stored mem base n a records) (hroom : fmt.total records + fmt.span r ≤ n) :
    fmt.Stored (mem.write (base + (a + fmt.total records) % n) (fmt.bytes r)) base n a
      (records ++ [r]) := by
  have hfits := fmt.fits r
  rw [stored_concat]
  constructor
  · apply h.keep (b := a + fmt.total records) (t := fmt.span r) (Nat.le_refl _) (by omega)
    intro x hx
    exact Memory.write_of_outside (by omega)
  · exact Memory.holdsAt_write

/-- A reader that goes on by the span of a record and wraps once gets to the next record. -/
theorem wrap_add (hpos : 0 < n) (hs : s ≤ n) :
    (if n ≤ a % n + s then a % n + s - n else a % n + s) = (a + s) % n := by
  have hlt : a % n < n := Nat.mod_lt a hpos
  have hmod : (a + s) % n = (a % n + s) % n := (Nat.mod_add_mod a n s).symm
  rw [hmod]
  split
  · next hle =>
      rw [Nat.mod_eq_sub_mod hle]
      exact (Nat.mod_eq_of_lt (by omega)).symm
  · next hlt' => exact (Nat.mod_eq_of_lt (by omega)).symm

end RecordFormat
end Foundation
end Micael
