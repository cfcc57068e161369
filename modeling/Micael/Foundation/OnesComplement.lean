import Mathlib.Tactic

/-!
# One's-complement sums of machine words

A one's-complement sum adds words with an end-around carry: what is carried out of the most significant
bit is added back at the least significant one.  With words up to {lit}`m`, which is one less than a
power of two, this is addition modulo {lit}`m` with one exception: {lit}`m` itself stands for zero as soon
as any word is not zero.

Bytes are read as words with the low byte first.  A trailing byte is the low byte of a last word.

Main results:

- Theorem {lit}`onesSum_eq_residue`: the sum of a list of words depends on their ordinary sum only.
- Theorem {lit}`residue_eq_iff`: when the residue is a given word.
- Theorem {lit}`words_append`: the words of two strings of bytes, the first one of even length.
- Theorem {lit}`words_sum_storeWord`: storing a word where there was a zero adds it to the sum.
-/

namespace Micael
namespace Foundation

/-! ## Sums -/

variable {m : Nat}

/-- Addition of two words with an end-around carry. -/
def addOnes (m a b : Nat) : Nat := if a + b ≤ m then a + b else a + b - m

/-- The one's-complement sum of a list of words. -/
def onesSum (m : Nat) : List Nat → Nat
  | [] => 0
  | w :: ws => addOnes m w (onesSum m ws)

/-- The word that an ordinary sum is reduced to. -/
def residue (m n : Nat) : Nat := if n = 0 then 0 else (n - 1) % m + 1

@[simp]
theorem residue_zero (m : Nat) : residue m 0 = 0 := rfl

theorem residue_of_pos {n : Nat} (hn : 0 < n) : residue m n = (n - 1) % m + 1 :=
  if_neg hn.ne'

/-- A word is its own residue. -/
theorem residue_of_le {n : Nat} (hn : n ≤ m) : residue m n = n := by
  rcases Nat.eq_zero_or_pos n with rfl | hpos
  · rfl
  · rw [residue_of_pos hpos, Nat.mod_eq_of_lt (by omega)]
    omega

theorem residue_le (hm : 0 < m) (n : Nat) : residue m n ≤ m := by
  rcases Nat.eq_zero_or_pos n with rfl | hpos
  · simp
  · rw [residue_of_pos hpos]
    exact Nat.mod_lt _ hm

/-- A residue and its number agree modulo {lit}`m`. -/
theorem residue_modEq (m n : Nat) : residue m n ≡ n [MOD m] := by
  rcases Nat.eq_zero_or_pos n with rfl | hpos
  · rfl
  · rw [residue_of_pos hpos]
    have hmod : (n - 1) % m + 1 ≡ n - 1 + 1 [MOD m] := (Nat.mod_modEq _ _).add_right 1
    rwa [Nat.sub_add_cancel hpos] at hmod

/-- The residue of a number that is not zero is the word that agrees with it and is not zero. -/
theorem residue_eq_iff {n w : Nat} (hn : 0 < n) (hpos : 0 < w) (hle : w ≤ m) :
    residue m n = w ↔ w ≡ n [MOD m] := by
  constructor
  · rintro rfl
    exact residue_modEq m n
  · intro hmod
    rw [residue_of_pos hn]
    have hless : w - 1 ≡ n - 1 [MOD m] := by
      apply Nat.ModEq.add_right_cancel' 1
      rwa [Nat.sub_add_cancel hpos, Nat.sub_add_cancel hn]
    have hsmall : (w - 1) % m = w - 1 := Nat.mod_eq_of_lt (by omega)
    have hsame : (n - 1) % m = w - 1 := by
      rw [← hless, hsmall]
    omega

/-- One more word, with the carry taken around. -/
theorem addOnes_residue (hm : 0 < m) {w : Nat} (hw : w ≤ m) (n : Nat) :
    addOnes m w (residue m n) = residue m (w + n) := by
  rcases Nat.eq_zero_or_pos n with rfl | hn
  · rw [residue_zero, addOnes, Nat.add_zero, if_pos hw, residue_of_le hw]
  have hle := residue_le hm n
  have hpos : 0 < residue m n := by
    rw [residue_of_pos hn]
    exact Nat.succ_pos _
  have hmod : w + residue m n ≡ w + n [MOD m] := (residue_modEq m n).add_left w
  symm
  unfold addOnes
  by_cases hcarry : w + residue m n ≤ m
  · rw [if_pos hcarry, residue_eq_iff (by omega) (by omega) hcarry]
    exact hmod
  · rw [if_neg hcarry, residue_eq_iff (by omega) (by omega) (by omega)]
    apply Nat.ModEq.add_right_cancel' m
    rw [Nat.sub_add_cancel (by omega)]
    exact hmod.trans (Nat.add_modEq_right ..).symm

/-- The one's-complement sum is the residue of the ordinary one. -/
theorem onesSum_eq_residue (hm : 0 < m) {ws : List Nat} (hws : ∀ w ∈ ws, w ≤ m) :
    onesSum m ws = residue m ws.sum := by
  induction ws with
  | nil => rfl
  | cons w ws ih =>
      have hrest := ih fun v hv => hws v (List.mem_cons_of_mem w hv)
      rw [onesSum, hrest, addOnes_residue hm (hws w List.mem_cons_self), List.sum_cons]

/-! ## Words of bytes -/

/-- The 16-bit words of a string of bytes, padded with a zero byte to even length. -/
def words : List UInt8 → List Nat
  | [] => []
  | [b] => [b.toNat]
  | b :: c :: bytes => (b.toNat + 256 * c.toNat) :: words bytes

/-- A 16-bit word is at most {lit}`0xffff`. -/
theorem words_le (bytes : List UInt8) : ∀ w ∈ words bytes, w ≤ 65535 := by
  induction bytes using words.induct with
  | case1 => simp [words]
  | case2 b =>
      have hb := b.toNat_lt
      simp only [words, List.mem_singleton, forall_eq]
      omega
  | case3 b c bytes ih =>
      have hb := b.toNat_lt
      have hc := c.toNat_lt
      simp only [words, List.mem_cons, forall_eq_or_imp]
      exact ⟨by omega, ih⟩

theorem words_length (bytes : List UInt8) : (words bytes).length = (bytes.length + 1) / 2 := by
  induction bytes using words.induct with
  | case1 => rfl
  | case2 b => simp [words]
  | case3 b c bytes ih =>
      simp only [words, List.length_cons, ih]
      omega

/-- The sum of the words of a string of bytes is bounded by its length. -/
theorem words_sum_le (bytes : List UInt8) :
    (words bytes).sum ≤ (bytes.length + 1) / 2 * 65535 := by
  have hsum := List.sum_le_card_nsmul (words bytes) 65535 (words_le bytes)
  rwa [words_length, smul_eq_mul] at hsum

/-- The words of two strings of bytes, the first one of even length. -/
theorem words_append {front : List UInt8} (heven : Even front.length) (rest : List UInt8) :
    words (front ++ rest) = words front ++ words rest := by
  induction front using words.induct with
  | case1 => rfl
  | case2 b => exact absurd heven (by simp)
  | case3 b c bytes ih =>
      have hbytes : Even bytes.length := by
        rw [List.length_cons, List.length_cons, Nat.even_add_one, Nat.even_add_one] at heven
        exact not_not.mp heven
      simp only [List.cons_append, words, ih hbytes]

/-- Stores a 16-bit word at position {lit}`k`. -/
def storeWord (bytes : List UInt8) (k w : Nat) : List UInt8 :=
  bytes.take k ++ [UInt8.ofNat w, UInt8.ofNat (w / 256)] ++ bytes.drop (k + 2)

/-- A string of bytes is cut around two of them. -/
theorem eq_take_two_drop {bytes : List UInt8} {k : Nat} {b c : UInt8} (hb : bytes[k]? = some b)
    (hc : bytes[k + 1]? = some c) : bytes = bytes.take k ++ [b, c] ++ bytes.drop (k + 2) := by
  obtain ⟨hk, rfl⟩ := List.getElem?_eq_some_iff.mp hb
  obtain ⟨hk', rfl⟩ := List.getElem?_eq_some_iff.mp hc
  conv_lhs => rw [← List.take_append_drop k bytes, List.drop_eq_getElem_cons hk,
    List.drop_eq_getElem_cons hk']
  simp

/-- Storing a word at an even position where there was a zero adds the word to the sum. -/
theorem words_sum_storeWord {bytes : List UInt8} {k w : Nat} (heven : Even k)
    (hb : bytes[k]? = some 0) (hc : bytes[k + 1]? = some 0) (hw : w ≤ 65535) :
    (words (storeWord bytes k w)).sum = (words bytes).sum + w := by
  have hcut := eq_take_two_drop hb hc
  have hlength : (bytes.take k).length = k := by
    have hk := (List.getElem?_eq_some_iff.mp hb).1
    rw [List.length_take]
    omega
  have hfront : Even (bytes.take k).length := by rwa [hlength]
  have hsplit : ∀ x y : UInt8, (words (bytes.take k ++ [x, y] ++ bytes.drop (k + 2))).sum =
      (words (bytes.take k)).sum + (x.toNat + 256 * y.toNat) + (words (bytes.drop (k + 2))).sum := by
    intro x y
    rw [List.append_assoc, words_append hfront, List.sum_append]
    simp only [List.cons_append, List.nil_append, words, List.sum_cons]
    omega
  have hold := hsplit 0 0
  rw [← hcut] at hold
  have hword : (UInt8.ofNat w).toNat + 256 * (UInt8.ofNat (w / 256)).toNat = w := by
    simp only [UInt8.toNat_ofNat']
    omega
  rw [storeWord, hsplit, hword, hold]
  simp only [UInt8.toNat_zero]
  omega

end Foundation
end Micael
