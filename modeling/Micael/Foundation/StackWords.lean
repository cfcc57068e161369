import Micael.Foundation.Memory

/-!
# Words on a stack in memory

A processor with a stack that grows downwards stores a list of 64-bit words one below the other, so that
read upwards from the stack pointer they stand in the opposite order.  Nothing else in memory changes.

Main results:

- Theorem {lit}`Memory.words_pushWords`: what was pushed is read back.
- Theorem {lit}`Memory.words_storeWords`: the same for words that were stored in their order.
- Theorem {lit}`Memory.pushWords_of_outside`: a push changes nothing outside of its words.
- Theorem {lit}`Memory.words_congr`: words are read alike in memories that agree on them.
- Theorem {lit}`assign_of_map`: registers that are loaded with the values of a list.
-/

namespace Micael
namespace Foundation
namespace Memory

variable {mem mem' : Memory} {a b n m : Nat} {w : UInt64} {ws : List UInt64}

/-- The word at an address. -/
def word (mem : Memory) (a : Nat) : UInt64 := UInt64.ofNat (mem.load a 8)

/-- Store a word at an address. -/
def setWord (mem : Memory) (a : Nat) (w : UInt64) : Memory := mem.store a 8 w.toNat

@[simp]
theorem word_setWord_self : (mem.setWord a w).word a = w := by
  have hlt := w.toNat_lt
  rw [word, setWord, load_store_self, Nat.mod_eq_of_lt (by simpa using hlt), UInt64.ofNat_toNat]

theorem setWord_of_outside {x : Nat} (h : x < a ∨ a + 8 ≤ x) : mem.setWord a w x = mem x :=
  store_of_outside h

theorem word_congr (h : ∀ x, a ≤ x → x < a + 8 → mem x = mem' x) : mem.word a = mem'.word a := by
  rw [word, word, load_congr fun x hx => h x hx.1 hx.2]

theorem word_setWord_of_disjoint (h : b + 8 ≤ a ∨ a + 8 ≤ b) : (mem.setWord a w).word b = mem.word b := by
  apply word_congr
  intro x hlow hhigh
  exact setWord_of_outside (by omega)

/-- The `n` words from an address upwards. -/
def words (mem : Memory) (a n : Nat) : List UInt64 := (List.range n).map fun i => mem.word (a + 8 * i)

@[simp]
theorem length_words : (mem.words a n).length = n := by
  simp [words]

@[simp]
theorem words_zero : mem.words a 0 = [] := rfl

theorem words_succ : mem.words a (n + 1) = mem.word a :: mem.words (a + 8) n := by
  simp only [words, List.range_succ_eq_map, List.map_cons, List.map_map, Nat.mul_zero, Nat.add_zero]
  refine congrArg _ (List.map_congr_left fun i _ => ?_)
  simp only [Function.comp_apply]
  congr 1
  omega

theorem words_add : mem.words a (n + m) = mem.words a n ++ mem.words (a + 8 * n) m := by
  induction n generalizing a with
  | zero => simp
  | succ n ih =>
      have hnext : a + 8 + 8 * n = a + 8 * (n + 1) := by omega
      rw [show n + 1 + m = n + m + 1 by omega, words_succ, words_succ, ih, hnext, List.cons_append]

/-- Words are read alike in memories that agree on them. -/
theorem words_congr (h : ∀ x, a ≤ x → x < a + 8 * n → mem x = mem' x) :
    mem.words a n = mem'.words a n := by
  refine List.map_congr_left fun i hi => word_congr fun x hlow hhigh => ?_
  have hlt := List.mem_range.mp hi
  exact h x (by omega) (by omega)

/-- Words at different addresses whose bytes are the same. -/
theorem words_eq_of_bytes (h : ∀ i < 8 * n, mem (a + i) = mem' (b + i)) : mem.words a n = mem'.words b n := by
  refine List.map_congr_left fun i hi => ?_
  have hlt := List.mem_range.mp hi
  have hload : mem.load (a + 8 * i) 8 = mem'.load (b + 8 * i) 8 := by
    apply load_eq_of_bytes
    intro j hj
    rw [Nat.add_assoc, Nat.add_assoc]
    exact h (8 * i + j) (by omega)
  rw [word, word, hload]

/-- One word among others. -/
theorem words_getElem? {i : Nat} (h : i < n) : (mem.words a n)[i]? = some (mem.word (a + 8 * i)) := by
  simp [words, h]

/-- Words after one of them was replaced. -/
theorem words_setWord {i : Nat} :
    (mem.setWord (a + 8 * i) w).words a n = (mem.words a n).set i w := by
  apply List.ext_getElem?
  intro j
  by_cases hj : j < n
  · rw [words_getElem? hj, List.getElem?_set, words_getElem? hj, length_words]
    by_cases heq : i = j
    · rw [heq, word_setWord_self, if_pos rfl, if_pos hj]
    · rw [word_setWord_of_disjoint (by omega), if_neg heq]
  · rw [List.getElem?_eq_none (by simpa using hj), List.getElem?_eq_none (by simpa using hj)]

/-- Push words, each below the one before it. -/
def pushWords (mem : Memory) (a : Nat) : List UInt64 → Memory
  | [] => mem
  | w :: ws => pushWords (mem.setWord (a - 8) w) (a - 8) ws

@[simp]
theorem pushWords_nil : mem.pushWords a [] = mem := rfl

theorem pushWords_cons : mem.pushWords a (w :: ws) = (mem.setWord (a - 8) w).pushWords (a - 8) ws := rfl

/-- A push changes nothing outside of its words. -/
theorem pushWords_of_outside {x : Nat} (hroom : 8 * ws.length ≤ a)
    (h : x < a - 8 * ws.length ∨ a ≤ x) : mem.pushWords a ws x = mem x := by
  induction ws generalizing mem a with
  | nil => rfl
  | cons w ws ih =>
      rw [List.length_cons] at hroom h
      rw [pushWords_cons, ih (by omega) (by omega)]
      exact setWord_of_outside (by omega)

/-- What was pushed is read back, the last word first. -/
theorem words_pushWords (hroom : 8 * ws.length ≤ a) :
    (mem.pushWords a ws).words (a - 8 * ws.length) ws.length = ws.reverse := by
  induction ws generalizing mem a with
  | nil => rfl
  | cons w ws ih =>
      rw [List.length_cons] at hroom ⊢
      have hnext : a - 8 * (ws.length + 1) = a - 8 - 8 * ws.length := by omega
      have hlast : a - 8 - 8 * ws.length + 8 * ws.length = a - 8 := by omega
      have hkept : ((mem.setWord (a - 8) w).pushWords (a - 8) ws).word (a - 8) = w := by
        have hsame : ((mem.setWord (a - 8) w).pushWords (a - 8) ws).word (a - 8) =
            (mem.setWord (a - 8) w).word (a - 8) :=
          word_congr fun x hlow _ => pushWords_of_outside (by omega) (.inr hlow)
        rw [hsame, word_setWord_self]
      rw [hnext, pushWords_cons, words_add, ih (by omega), hlast, words_succ, hkept, words_zero,
        List.reverse_cons]

/-- Words that are pushed in the opposite order are read in theirs. -/
theorem words_pushWords_reverse (hroom : 8 * ws.length ≤ a) :
    (mem.pushWords a ws.reverse).words (a - 8 * ws.length) ws.length = ws := by
  have hless : 8 * ws.reverse.length ≤ a := by rwa [List.length_reverse]
  have hwords := @words_pushWords mem _ _ hless
  rwa [List.length_reverse, List.reverse_reverse] at hwords

/-- Store words at an address and upwards. -/
def storeWords (mem : Memory) (a : Nat) (ws : List UInt64) : Memory :=
  mem.pushWords (a + 8 * ws.length) ws.reverse

@[simp]
theorem words_storeWords : (mem.storeWords a ws).words a ws.length = ws := by
  have hread := @words_pushWords_reverse mem (a + 8 * ws.length) ws (by omega)
  rwa [Nat.add_sub_cancel] at hread

theorem storeWords_of_outside {x : Nat} (h : x < a ∨ a + 8 * ws.length ≤ x) :
    mem.storeWords a ws x = mem x := by
  apply pushWords_of_outside
  · rw [List.length_reverse]
    omega
  · rw [List.length_reverse, Nat.add_sub_cancel]
    exact h

/-- Words that were read together. -/
theorem words_of_append {us : List UInt64} (h : mem.words a (ws ++ us).length = ws ++ us) :
    mem.words a ws.length = ws ∧ mem.words (a + 8 * ws.length) us.length = us := by
  rw [List.length_append, words_add] at h
  exact List.append_inj h length_words

end Memory

/-! ## Loading registers -/

section Assign

variable {ρ : Type} [DecidableEq ρ] {α : Type} {f g : ρ → α} {rs : List ρ}

/-- Load registers one after the other. -/
def assign (f : ρ → α) : List ρ → List α → ρ → α
  | r :: rs, v :: vs => assign (Function.update f r v) rs vs
  | _, _ => f

theorem assign_of_not_mem {vs : List α} {r : ρ} (hr : r ∉ rs) : assign f rs vs r = f r := by
  induction rs generalizing f vs with
  | nil => rfl
  | cons s rs ih =>
      cases vs with
      | nil => rfl
      | cons v vs =>
          have hne : r ≠ s ∧ r ∉ rs := by simpa using hr
          rw [assign, ih hne.2, Function.update_of_ne hne.1]

/-- Registers that are loaded with the values they have elsewhere. -/
theorem assign_of_map (hnodup : rs.Nodup) {r : ρ} (hr : r ∈ rs) : assign f rs (rs.map g) r = g r := by
  induction rs generalizing f with
  | nil => cases hr
  | cons s rs ih =>
      have hsplit := List.nodup_cons.mp hnodup
      rw [List.map_cons, assign]
      rcases List.mem_cons.mp hr with rfl | hmem
      · rw [assign_of_not_mem hsplit.1, Function.update_self]
      · exact ih hsplit.2 hmem

end Assign

end Foundation
end Micael
