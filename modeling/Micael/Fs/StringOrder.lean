import Micael.Foundation.ThreeWay
import Micael.Fs.PathBytes

/-!
# Comparing strings

`kstrcmp` goes on until both strings have ended and compares the characters on the way, signed, the terminators
as zeros.  `kstrcmp_s` compares as many characters as its first argument has and decides by what stands behind
them: `kstrncmp`, which it calls, looks at the characters at the bound as well.

A string stands in a block of memory that ends with its terminator, so that a read behind it stops the model.

Main results:

- Theorem {lit}`kstrcmp_block`: `kstrcmp` is the comparison of a linear order.
- Theorem {lit}`string_comparison`: both functions, for all strings.
- Theorem {lit}`kstrncmp_bounded_iff`: when `kstrncmp` keeps to the number of characters it is given.
-/

namespace Micael
namespace Fs

open Foundation

/-- `kstrcmp`; characters are signed. -/
def kstrcmp : List UInt8 → List UInt8 → Option Int
  | c :: s1, d :: s2 =>
      if c ≠ 0 ∨ d ≠ 0 then
        if c.toInt8 < d.toInt8 then some (-1)
        else if d.toInt8 < c.toInt8 then some 1
        else kstrcmp s1 s2
      else some 0
  | _, _ => none

/-- A string: characters other than the terminator. -/
@[ext]
structure CString where
  chars : List UInt8
  no_zero : 0 ∉ chars

/-- The characters and the terminator, and nothing behind. -/
def CString.block (s : CString) : List UInt8 := s.chars ++ [0]

/-- A character as a number. -/
def charNumber (c : UInt8) : Int := c.toInt8.toInt

/-- What `kstrcmp` compares: the characters and the terminator as numbers. -/
def stringNumbers (chars : List UInt8) : List Int := chars.map charNumber ++ [0]

/-! ## The order of strings -/

section Order

variable {a b s1 s2 : List UInt8} {c d : UInt8}

theorem charNumber_inj : charNumber c = charNumber d ↔ c = d := by
  rw [charNumber, charNumber, Int8.toInt_inj]
  constructor
  · intro h
    have hback := congrArg Int8.toUInt8 h
    rwa [UInt8.toUInt8_toInt8, UInt8.toUInt8_toInt8] at hback
  · exact fun h => congrArg UInt8.toInt8 h

theorem charNumber_lt_iff : charNumber c < charNumber d ↔ c.toInt8 < d.toInt8 :=
  Int8.lt_iff_toInt_lt.symm

/-- Strings with the same numbers are the same. -/
theorem stringNumbers_inj : stringNumbers a = stringNumbers b ↔ a = b := by
  have hinj : Function.Injective charNumber := fun c d h => charNumber_inj.mp h
  rw [stringNumbers, stringNumbers, List.append_left_inj]
  exact hinj.list_map.eq_iff

/-- A turn of the loop compares two characters, if strings that agree so far are compared by what follows. -/
theorem kstrcmp_cons {k1 k2 : List Int} (hmore : c ≠ 0 ∨ d ≠ 0)
    (hrest : c = d → kstrcmp s1 s2 = some (ThreeWay.sign k1 k2)) :
    kstrcmp (c :: s1) (d :: s2) = some (ThreeWay.sign (charNumber c :: k1) (charNumber d :: k2)) := by
  rw [kstrcmp, if_pos hmore, ThreeWay.sign_cons]
  simp only [charNumber_lt_iff]
  by_cases hlt : c.toInt8 < d.toInt8
  · rw [if_pos hlt, if_pos hlt]
  rw [if_neg hlt, if_neg hlt]
  by_cases hgt : d.toInt8 < c.toInt8
  · rw [if_pos hgt, if_pos hgt]
  rw [if_neg hgt, if_neg hgt]
  have hequal : charNumber c = charNumber d :=
    le_antisymm (not_lt.mp (charNumber_lt_iff.not.mpr hgt)) (not_lt.mp (charNumber_lt_iff.not.mpr hlt))
  exact hrest (charNumber_inj.mp hequal)

/-- `kstrcmp` of two strings that more bytes follow compares them as lists of numbers. -/
theorem kstrcmp_append (ha : 0 ∉ a) (hb : 0 ∉ b) (ra rb : List UInt8) :
    kstrcmp (a ++ 0 :: ra) (b ++ 0 :: rb) = some (ThreeWay.sign (stringNumbers a) (stringNumbers b)) := by
  induction a generalizing b with
  | nil =>
      cases b with
      | nil => exact congrArg some (ThreeWay.sign_self _).symm
      | cons d b =>
          have hd : d ≠ 0 := fun h => hb (h ▸ List.mem_cons_self)
          exact kstrcmp_cons (.inr hd) fun h => absurd h.symm hd
  | cons c a ih =>
      have hc : c ≠ 0 := fun h => ha (h ▸ List.mem_cons_self)
      cases b with
      | nil => exact kstrcmp_cons (.inl hc) fun h => absurd h hc
      | cons d b =>
          apply kstrcmp_cons (.inl hc)
          intro _
          exact ih (fun h => ha (List.mem_cons_of_mem c h)) fun h => hb (List.mem_cons_of_mem d h)

end Order

/-! ## Both functions -/

section Both

variable {a b : List UInt8}

/-- What follows the strings does not matter to `kstrncmp`, however many characters it may compare. -/
theorem kstrncmp_append (ha : 0 ∉ a) (hb : 0 ∉ b) (ra rb : List UInt8) (len : Nat) :
    kstrncmp (a ++ 0 :: ra) (b ++ 0 :: rb) len = kstrncmp (a ++ [0]) (b ++ [0]) len := by
  induction a generalizing b len with
  | nil =>
      cases b with
      | nil => rfl
      | cons d b => rfl
  | cons c a ih =>
      cases b with
      | nil =>
          simp only [List.cons_append, List.nil_append, kstrncmp, ne_eq, not_true_eq_false, false_and, and_false,
            if_false]
      | cons d b =>
          have hrest := ih (fun h => ha (List.mem_cons_of_mem c h)) (fun h => hb (List.mem_cons_of_mem d h)) (len - 1)
          simp only [List.cons_append, kstrncmp, hrest]

/-- `kstrcmp_s` of two strings that more bytes follow. -/
theorem kstrcmpSBlock_append (ha : 0 ∉ a) (hb : 0 ∉ b) (ra rb : List UInt8) :
    kstrcmpSBlock (a ++ 0 :: ra) (b ++ 0 :: rb) = kstrcmpSBlock (a ++ [0]) (b ++ [0]) := by
  rw [kstrcmpSBlock, kstrcmpSBlock, kstrlen_append ha, kstrlen_append ha, Option.bind_some, Option.bind_some,
    kstrncmp_append ha hb]

theorem CString.block_append (s : CString) (rest : List UInt8) : s.block ++ rest = s.chars ++ 0 :: rest := by
  rw [CString.block, List.append_assoc, List.singleton_append]

theorem CString.chars_inj {s t : CString} : s.chars = t.chars ↔ s = t := by
  rw [CString.ext_iff]

/-- `kstrcmp` is the comparison of a linear order. -/
theorem kstrcmp_block (s t : CString) :
    kstrcmp s.block t.block = some (ThreeWay.sign (stringNumbers s.chars) (stringNumbers t.chars)) :=
  kstrcmp_append s.no_zero t.no_zero [] []

/-- What stands behind the terminators is not read. -/
theorem compare_block_append (s t : CString) (ra rb : List UInt8) :
    kstrcmpSBlock (s.block ++ ra) (t.block ++ rb) = kstrcmpSBlock s.block t.block ∧
      kstrcmp (s.block ++ ra) (t.block ++ rb) = kstrcmp s.block t.block := by
  rw [s.block_append, t.block_append]
  constructor
  · exact kstrcmpSBlock_append s.no_zero t.no_zero ra rb
  · rw [kstrcmp_block]
    exact kstrcmp_append s.no_zero t.no_zero ra rb

end Both

/-- Both functions return for all strings, and read nothing behind a terminator.  They return zero just for equal
strings; `kstrcmp` gives the opposite for exchanged arguments and is transitive. -/
theorem string_comparison (a b c : CString) :
    (∃ r, kstrcmpSBlock a.block b.block = some r ∧ (r = 0 ↔ a = b)) ∧
      (∃ r s t, kstrcmp a.block b.block = some r ∧ kstrcmp b.block c.block = some s ∧
        kstrcmp a.block c.block = some t ∧ (r = 0 ↔ a = b) ∧ kstrcmp b.block a.block = some (-r) ∧
        (r ≤ 0 → s ≤ 0 → t ≤ 0)) ∧
      ∀ ra rb, kstrcmpSBlock (a.block ++ ra) (b.block ++ rb) = kstrcmpSBlock a.block b.block ∧
        kstrcmp (a.block ++ ra) (b.block ++ rb) = kstrcmp a.block b.block := by
  refine ⟨?_, ?_, compare_block_append a b⟩
  · obtain ⟨r, hr, hiff⟩ := kstrcmpSBlock_eq_zero_iff a.no_zero b.no_zero []
    exact ⟨r, hr, hiff.trans CString.chars_inj⟩
  · refine ⟨_, _, _, kstrcmp_block a b, kstrcmp_block b c, kstrcmp_block a c, ?_, ?_, ?_⟩
    · rw [ThreeWay.sign_eq_zero_iff, stringNumbers_inj, CString.chars_inj]
    · rw [kstrcmp_block, ThreeWay.sign_swap]
    · rw [ThreeWay.sign_nonpos_iff, ThreeWay.sign_nonpos_iff, ThreeWay.sign_nonpos_iff]
      exact fun hab hbc => hab.trans hbc

/-! ## Comparing a number of characters -/

/-- A string with its terminator, or an array of at least `len` characters. -/
def HasChars (s : List UInt8) (len : Nat) : Prop := 0 ∈ s ∨ len ≤ s.length

/-- The characters before the terminator, `len` of them at most. -/
def firstChars (s : List UInt8) (len : Nat) : List UInt8 := (s.take len).takeWhile (· ≠ 0)

/-- What a bounded comparison is asked for: it returns with nothing at index `len` or behind it, and returns zero
just if both agree on their first `len` characters. -/
def ComparesFirst (s1 s2 : List UInt8) (len : Nat) : Prop :=
  ∃ r, kstrncmp s1 s2 len = some r ∧ kstrncmp (s1.take len) (s2.take len) len = some r ∧
    (r = 0 ↔ firstChars s1 len = firstChars s2 len)

/-- Among the first `len` characters is one at which a string ends or the two differ. -/
def DecidedBefore (s1 s2 : List UInt8) (len : Nat) : Prop :=
  ∃ i < len, s1[i]? = some 0 ∨ s2[i]? = some 0 ∨ s1[i]? ≠ s2[i]?

section Bounded

variable {s s1 s2 : List UInt8} {c d : UInt8} {len : Nat}

theorem firstChars_cons (hc : c ≠ 0) : firstChars (c :: s) (len + 1) = c :: firstChars s len := by
  rw [firstChars, List.take_succ_cons, List.takeWhile_cons_of_pos (by simpa using hc), firstChars]

theorem firstChars_zero_cons : firstChars (0 :: s) (len + 1) = [] := by
  rw [firstChars, List.take_succ_cons, List.takeWhile_cons_of_neg (by simp)]

theorem HasChars.eq_cons (h : HasChars s (len + 1)) : ∃ c s', s = c :: s' ∧ (c ≠ 0 → HasChars s' len) := by
  cases s with
  | nil => simp [HasChars] at h
  | cons c s' =>
      refine ⟨c, s', rfl, fun hc => ?_⟩
      rcases h with hzero | hlen
      · exact Or.inl ((List.mem_cons.mp hzero).resolve_left (Ne.symm hc))
      · exact Or.inr (Nat.le_of_succ_le_succ hlen)

theorem decidedBefore_cons : DecidedBefore (c :: s1) (d :: s2) (len + 1) ↔
    (c = 0 ∨ d = 0 ∨ c ≠ d) ∨ DecidedBefore s1 s2 len := by
  rw [DecidedBefore, Nat.exists_lt_succ_left]
  simp [DecidedBefore]

/-- Where a string ends, the comparison is decided. -/
theorem comparesFirst_of_end (h : c = 0 ∨ d = 0) : ComparesFirst (c :: s1) (d :: s2) (len + 1) := by
  refine ⟨_, kstrncmp_of_end h s1 s2 _, kstrncmp_of_end h (s1.take len) (s2.take len) _, ?_⟩
  by_cases hcd : c = d
  · obtain rfl : c = 0 := h.elim id (hcd.trans ·)
    rw [if_pos hcd, ← hcd, firstChars_zero_cons, firstChars_zero_cons]
    exact iff_of_true rfl rfl
  · rw [if_neg hcd]
    refine iff_of_false (by decide) ?_
    rcases h with rfl | rfl
    · rw [firstChars_zero_cons, firstChars_cons (Ne.symm hcd)]
      exact (List.cons_ne_nil _ _).symm
    · rw [firstChars_zero_cons, firstChars_cons hcd]
      exact List.cons_ne_nil _ _

/-- Where two characters differ, the comparison is decided. -/
theorem comparesFirst_of_ne (hc : c ≠ 0) (hd : d ≠ 0) (hne : c ≠ d) :
    ComparesFirst (c :: s1) (d :: s2) (len + 1) := by
  have hdiffer : firstChars (c :: s1) (len + 1) ≠ firstChars (d :: s2) (len + 1) := by
    rw [firstChars_cons hc, firstChars_cons hd]
    exact fun h => hne (List.cons.inj h).1
  obtain ⟨r, hr, hcall⟩ := kstrncmp_of_ne hc hd hne
  exact ⟨r, hcall s1 s2 len, hcall (s1.take len) (s2.take len) len, iff_of_false hr hdiffer⟩

/-- Behind a common character the comparison goes on. -/
theorem comparesFirst_cons_self (hc : c ≠ 0) :
    ComparesFirst (c :: s1) (c :: s2) (len + 1) ↔ ComparesFirst s1 s2 len := by
  rw [ComparesFirst, List.take_succ_cons, List.take_succ_cons, kstrncmp_cons_self hc, kstrncmp_cons_self hc,
    firstChars_cons hc, firstChars_cons hc]
  simp only [List.cons.injEq, true_and]
  rfl

/-- `kstrncmp` is a comparison of the first `len` characters just if these decide it: where both go on with the
same characters, it reads and compares the ones at index `len` as well. -/
theorem kstrncmp_bounded_iff (h1 : HasChars s1 len) (h2 : HasChars s2 len) :
    ComparesFirst s1 s2 len ↔ DecidedBefore s1 s2 len := by
  induction len generalizing s1 s2 with
  | zero =>
      apply iff_of_false
      · rintro ⟨r, -, hread, -⟩
        rw [List.take_zero, List.take_zero] at hread
        cases hread
      · rintro ⟨i, hi, -⟩
        exact Nat.not_lt_zero i hi
  | succ len ih =>
      obtain ⟨c, s1, rfl, hrest1⟩ := h1.eq_cons
      obtain ⟨d, s2, rfl, hrest2⟩ := h2.eq_cons
      rw [decidedBefore_cons]
      by_cases hend : c = 0 ∨ d = 0
      · exact iff_of_true (comparesFirst_of_end hend) (Or.inl (hend.imp_right Or.inl))
      obtain ⟨hc, hd⟩ := not_or.mp hend
      by_cases hcd : c = d
      · subst hcd
        rw [comparesFirst_cons_self hc, ih (hrest1 hc) (hrest2 hc)]
        simp [hc]
      · exact iff_of_true (comparesFirst_of_ne hc hd hcd) (Or.inl (Or.inr (Or.inr hcd)))

end Bounded

/-- The signatures `FACP` and `APIC` differ in their first character. -/
theorem signatures_compared : ComparesFirst [0x46, 0x41, 0x43, 0x50] [0x41, 0x50, 0x49, 0x43, 0] 3 :=
  (kstrncmp_bounded_iff (.inr (by decide)) (.inl (by decide))).mpr ⟨0, by decide, .inr (.inr (by decide))⟩

/-- `APIX` and `APIC` agree on three characters, and differ for `kstrncmp`. -/
theorem fourth_character_compared :
    firstChars [0x41, 0x50, 0x49, 0x58] 3 = firstChars [0x41, 0x50, 0x49, 0x43, 0] 3 ∧
      kstrncmp [0x41, 0x50, 0x49, 0x58] [0x41, 0x50, 0x49, 0x43, 0] 3 = some 1 ∧
      ¬ ComparesFirst [0x41, 0x50, 0x49, 0x58] [0x41, 0x50, 0x49, 0x43, 0] 3 := by
  refine ⟨by decide, by decide, ?_⟩
  rintro ⟨r, -, hread, -⟩
  cases hread

end Fs
end Micael
