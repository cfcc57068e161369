import Mathlib.Tactic

/-!
# Formatted output

`va_kprint` walks over a format and hands characters to `tty_putc`.  A number is written into a buffer of 64
characters, the last digit first; the padding and the sign follow, and the buffer is printed backwards.

Strings are the bytes before their terminating zero.  A write behind the buffer, a format that ends inside a
directive and an argument of another kind stop the model.

Main results:

- Theorem {lit}`putDigits_eq`: the loop over the digits leaves the numeral of the value, reversed.
- Theorem {lit}`printInteger_of_room`: a negative number with room for its sign.
- Theorem {lit}`printInteger_length`: the sign never makes the text longer.
- Theorem {lit}`kprint_formats_iff`: when a directive prints the padded form of its argument.
-/

namespace Micael
namespace Kernel

/-! ## Numbers -/

/-- `c[i++] = ch`, in a buffer of 64 characters. -/
def pushChar (c : List UInt8) (ch : UInt8) : Option (List UInt8) :=
  if c.length < 64 then some (c ++ [ch]) else none

/-- `c[i] = ch`, in a buffer of 64 characters.  The characters from the index on are not kept. -/
def setChar (c : List UInt8) (i : Nat) (ch : UInt8) : Option (List UInt8) :=
  if i < 64 then some (c.set i ch) else none

/-- The loop over the digits: the lowest digit is written, then the next value is looked at.  The number of
turns is bounded by the buffer. -/
def putDigits (low : UInt64 → UInt8) (next : UInt64 → UInt64) :
    Nat → UInt64 → List UInt8 → Option (List UInt8)
  | 0, _, _ => none
  | n + 1, value, c =>
      (pushChar c (low value)).bind fun c =>
        if next value ≠ 0 then putDigits low next n (next value) c else some c

/-- The padding loop. -/
def putPadding (width : Nat) (ch : UInt8) : Nat → List UInt8 → Option (List UInt8)
  | 0, _ => none
  | n + 1, c =>
      if c.length < width ∧ width ≠ 0 then (pushChar c ch).bind (putPadding width ch n) else some c

/-- `zero_padding ? '0' : ' '`. -/
def paddingChar (zp : Bool) : UInt8 := if zp then '0'.toUInt8 else ' '.toUInt8

/-- The first loop of `print_integer`. -/
def decimalDigits (value : UInt64) : Option (List UInt8) :=
  putDigits (fun value => (value % 10).toUInt8 + '0'.toUInt8) (fun value => value / 10) 65 value []

/-- `print_integer`: what is handed to `tty_putc`. -/
def printInteger (value : UInt64) (width : Nat) (sign : Int) (zp : Bool) : Option (List UInt8) :=
  (decimalDigits value).bind fun c =>
    let nlen := c.length
    (putPadding width (paddingChar zp) 65 c).bind fun c =>
      let i := c.length
      (if sign = -1 then setChar c (if zp then i - 1 else nlen) '-'.toUInt8 else some c).map List.reverse

/-- `sym` in `va_kprint`. -/
def sym : List UInt8 := "0123456789abcdef".toList.map Char.toUInt8

/-- The first loop of `%x`. -/
def hexDigits (tmp : UInt64) : Option (List UInt8) :=
  putDigits (fun tmp => sym.getD (tmp &&& 0xf).toNat 0) (fun tmp => tmp >>> 4) 65 tmp []

/-- The case `x` of `va_kprint`. -/
def printHex (tmp : UInt64) (width : Nat) (zp : Bool) : Option (List UInt8) :=
  (hexDigits tmp).bind fun c => (putPadding width (paddingChar zp) 65 c).map List.reverse

/-! ## Formats -/

/-- An argument of `va_kprint`: a word, or a pointer to a string. -/
inductive VaArg where
  | word (value : UInt64)
  | str (s : List UInt8)

/-- `va_arg(args, unsigned long)`. -/
def vaWord : List VaArg → Option (UInt64 × List VaArg)
  | .word value :: args => some (value, args)
  | _ => none

/-- `va_arg(args, char *)`. -/
def vaStr : List VaArg → Option (List UInt8 × List VaArg)
  | .str s :: args => some (s, args)
  | _ => none

/-- The loop over the padding width: the width, and the rest of the format. -/
def paddingWidth (width : Nat) : List UInt8 → Nat × List UInt8
  | [] => (width, [])
  | ch :: fmt =>
      if '0'.toUInt8 ≤ ch ∧ ch ≤ '9'.toUInt8 then
        paddingWidth (width * 10 + (ch.toNat - '0'.toUInt8.toNat)) fmt
      else (width, ch :: fmt)

/-- The case `d` of `va_kprint`. -/
def printSigned (tmp : Int64) (width : Nat) (zp : Bool) : Option (List UInt8) :=
  printInteger (if tmp < 0 then -tmp else tmp).toUInt64 width (if tmp < 0 then -1 else 0) zp

/-- The second switch of `va_kprint`: what is printed, and the arguments that are left. -/
def printConversion (ch : UInt8) (width : Nat) (zp : Bool) (args : List VaArg) :
    Option (List UInt8 × List VaArg) :=
  if ch = 'd'.toUInt8 then
    (vaWord args).bind fun a => (printSigned a.1.toInt64 width zp).map (·, a.2)
  else if ch = 'u'.toUInt8 then
    (vaWord args).bind fun a => (printInteger a.1 width 0 zp).map (·, a.2)
  else if ch = 'x'.toUInt8 then
    (vaWord args).bind fun a => (printHex a.1 width zp).map (·, a.2)
  else some ([], args)

/-- A directive from its padding width on: what is printed, the rest of the format and the arguments that
are left. -/
def widthDirective (zp : Bool) (fmt : List UInt8) (args : List VaArg) :
    Option (List UInt8 × List UInt8 × List VaArg) :=
  match paddingWidth 0 fmt with
  | (_, []) => none
  | (width, ch :: fmt) => (printConversion ch width zp args).map fun r => (r.1, fmt, r.2)

/-- A directive behind its `%`. -/
def printDirective : List UInt8 → List VaArg → Option (List UInt8 × List UInt8 × List VaArg)
  | [], _ => none
  | ch :: fmt, args =>
      if ch = '%'.toUInt8 then some (['%'.toUInt8], fmt, args)
      else if ch = 'c'.toUInt8 then (vaWord args).map fun a => ([a.1.toUInt8], fmt, a.2)
      else if ch = 's'.toUInt8 then (vaStr args).map fun a => (a.1, fmt, a.2)
      else if ch = '0'.toUInt8 then widthDirective true fmt args
      else widthDirective false (ch :: fmt) args

/-- One turn of `va_kprint`. -/
def kprintTurn (ch : UInt8) (fmt : List UInt8) (args : List VaArg) :
    Option (List UInt8 × List UInt8 × List VaArg) :=
  if ch ≠ '%'.toUInt8 then some ([ch], fmt, args) else printDirective fmt args

section Turns

variable {ch : UInt8} {fmt : List UInt8} {args : List VaArg} {r : List UInt8 × List UInt8 × List VaArg}

theorem paddingWidth_length (fmt : List UInt8) (width : Nat) :
    (paddingWidth width fmt).2.length ≤ fmt.length := by
  induction fmt generalizing width with
  | nil => exact Nat.le_refl 0
  | cons ch fmt ih =>
      rw [paddingWidth]
      split
      · exact (ih _).trans (Nat.le_succ _)
      · exact Nat.le_refl _

theorem widthDirective_length {zp : Bool} (h : widthDirective zp fmt args = some r) :
    r.2.1.length ≤ fmt.length := by
  have hwidth := paddingWidth_length fmt 0
  rw [widthDirective] at h
  generalize paddingWidth 0 fmt = p at h hwidth
  obtain ⟨width, rest⟩ := p
  cases rest with
  | nil => cases h
  | cons ch rest =>
      obtain ⟨q, -, rfl⟩ := Option.map_eq_some_iff.mp h
      exact (Nat.le_succ _).trans hwidth

theorem printDirective_length (h : printDirective fmt args = some r) : r.2.1.length ≤ fmt.length := by
  cases fmt with
  | nil => cases h
  | cons ch fmt =>
      rw [printDirective] at h
      split at h
      · cases h
        exact Nat.le_succ _
      · split at h
        · obtain ⟨a, -, rfl⟩ := Option.map_eq_some_iff.mp h
          exact Nat.le_succ _
        · split at h
          · obtain ⟨a, -, rfl⟩ := Option.map_eq_some_iff.mp h
            exact Nat.le_succ _
          · split at h
            · exact (widthDirective_length h).trans (Nat.le_succ _)
            · exact widthDirective_length h

/-- A turn moves on in the format. -/
theorem kprintTurn_length (h : kprintTurn ch fmt args = some r) : r.2.1.length ≤ fmt.length := by
  rw [kprintTurn] at h
  split at h
  · cases h
    exact Nat.le_refl _
  · exact printDirective_length h

end Turns

/-- `va_kprint`: what is handed to `tty_putc` and `tty_puts`. -/
def vaKprint : List UInt8 → List VaArg → Option (List UInt8)
  | [], _ => some []
  | ch :: fmt, args =>
      match _hturn : kprintTurn ch fmt args with
      | none => none
      | some r => (vaKprint r.2.1 r.2.2).map (r.1 ++ ·)
termination_by fmt => fmt.length
decreasing_by
  have hle := kprintTurn_length _hturn
  rw [List.length_cons]
  omega

/-- `kprint`, which holds a lock meanwhile. -/
def kprint (fmt : List UInt8) (args : List VaArg) : Option (List UInt8) := vaKprint fmt args

/-- `vkprint`. -/
def vkprint (fmt : List UInt8) (args : List VaArg) : Option (List UInt8) :=
  (vaKprint fmt args).map (· ++ ['\n'.toUInt8])

/-! ## What is promised -/

/-- The canonical numeral of a number. -/
def numeral (base n : Nat) : List UInt8 := (Nat.toDigits base n).map Char.toUInt8

/-- A conversion of a number. -/
inductive Conversion where
  | d
  | u
  | x

/-- The character of a conversion. -/
def Conversion.char : Conversion → UInt8
  | d => 'd'.toUInt8
  | u => 'u'.toUInt8
  | x => 'x'.toUInt8

/-- The sign and the digits of a value. -/
def Conversion.parts (value : UInt64) : Conversion → List UInt8 × List UInt8
  | d =>
      let v := value.toInt64.toInt
      (if v < 0 then ['-'.toUInt8] else [], numeral 10 v.natAbs)
  | u => ([], numeral 10 value.toNat)
  | x => ([], numeral 16 value.toNat)

/-- The representation of a value padded to the width: with spaces before the sign, or with zeros behind
it. -/
def Conversion.padded (conv : Conversion) (width : Nat) (zp : Bool) (value : UInt64) : List UInt8 :=
  let (sign, digits) := conv.parts value
  let room := width - (sign.length + digits.length)
  if zp then sign ++ List.replicate room '0'.toUInt8 ++ digits
  else List.replicate room ' '.toUInt8 ++ sign ++ digits

/-- The text of a directive. -/
def Conversion.directive (conv : Conversion) (width : Nat) (zp : Bool) : List UInt8 :=
  '%'.toUInt8 :: (if zp then ['0'.toUInt8] else []) ++ (if width = 0 then [] else numeral 10 width) ++ [conv.char]

/-- A directive prints the padded representation of its argument, wherever it stands. -/
def Conversion.Formats (conv : Conversion) (width : Nat) (zp : Bool) (value : UInt64) : Prop :=
  ∀ fmt args, vaKprint (conv.directive width zp ++ fmt) (.word value :: args) =
    (vaKprint fmt args).map (conv.padded width zp value ++ ·)

/-- The condition: a negative number has fewer digits than the width. -/
def Conversion.Fits (width : Nat) (value : UInt64) : Conversion → Prop
  | d => value.toInt64.toInt < 0 → value.toInt64.toInt.natAbs < 10 ^ (width - 1)
  | u | x => True

/-! ## Numerals -/

section Numerals

variable {base n : Nat}

theorem numeral_of_lt (h : n < base) : numeral base n = [n.digitChar.toUInt8] := by
  rw [numeral, Nat.toDigits_of_lt_base h, List.map_singleton]

theorem numeral_of_le (hb : 1 < base) (h : base ≤ n) :
    numeral base n = numeral base (n / base) ++ [(n % base).digitChar.toUInt8] := by
  rw [numeral, Nat.toDigits_of_base_le hb h, List.map_append, List.map_singleton, numeral]

theorem numeral_length_pos : 0 < (numeral base n).length := by
  rw [numeral, List.length_map]
  exact Nat.length_toDigits_pos

theorem numeral_length_le_iff (hb : 1 < base) {k : Nat} (hk : 0 < k) :
    (numeral base n).length ≤ k ↔ n < base ^ k := by
  rw [numeral, List.length_map]
  exact Nat.length_toDigits_le_iff hb hk

/-- A number with fewer digits than a width. -/
theorem numeral_length_lt_iff (hb : 1 < base) (hn : 0 < n) {width : Nat} :
    (numeral base n).length < width ↔ n < base ^ (width - 1) := by
  have hpos := @numeral_length_pos base n
  rcases Nat.lt_or_ge 1 width with hwidth | hwidth
  · rw [← numeral_length_le_iff hb (by omega)]
    omega
  · have hone : base ^ (width - 1) = 1 := by
      rw [show width - 1 = 0 by omega, pow_zero]
    omega

/-- A numeral in base ten begins with a digit, and not with zero. -/
theorem numeral_head (hn : 0 < n) :
    ∃ d rest, numeral 10 n = d :: rest ∧ '1'.toUInt8 ≤ d ∧ d ≤ '9'.toUInt8 := by
  induction n using Nat.strong_induction_on with
  | _ n ih =>
      rcases Nat.lt_or_ge n 10 with hlt | hge
      · have hdigit : ∀ n < 10, 0 < n →
            '1'.toUInt8 ≤ n.digitChar.toUInt8 ∧ n.digitChar.toUInt8 ≤ '9'.toUInt8 := by decide
        exact ⟨_, [], numeral_of_lt hlt, hdigit n hlt hn⟩
      · obtain ⟨d, rest, heq, hd⟩ := ih (n / 10) (by omega) (by omega)
        refine ⟨d, rest ++ [(n % 10).digitChar.toUInt8], ?_, hd⟩
        rw [numeral_of_le (by norm_num) hge, heq, List.cons_append]

end Numerals

/-! ## Buffers -/

section Buffers

variable {base width n : Nat} {c : List UInt8}

theorem pushChar_of_lt (h : c.length < 64) (ch : UInt8) : pushChar c ch = some (c ++ [ch]) :=
  if_pos h

/-- The loop over the digits leaves the numeral, the last digit first. -/
theorem putDigits_eq {low : UInt64 → UInt8} {next : UInt64 → UInt64} (hb : 1 < base)
    (hlow : ∀ v, low v = (v.toNat % base).digitChar.toUInt8) (hnext : ∀ v, (next v).toNat = v.toNat / base)
    {value : UInt64} (hfuel : (numeral base value.toNat).length ≤ n)
    (hroom : c.length + (numeral base value.toNat).length ≤ 64) :
    putDigits low next n value c = some (c ++ (numeral base value.toNat).reverse) := by
  induction n generalizing value c with
  | zero => exact absurd hfuel (by have hpos := @numeral_length_pos base value.toNat; omega)
  | succ n ih =>
      have hpos := @numeral_length_pos base value.toNat
      rw [putDigits, pushChar_of_lt (by omega), Option.bind_some]
      rcases Nat.lt_or_ge value.toNat base with hlt | hge
      · have hzero : next value = 0 := by
          apply UInt64.toNat_inj.mp
          rw [hnext, Nat.div_eq_of_lt hlt]
          rfl
        rw [if_neg (not_not_intro hzero), hlow, Nat.mod_eq_of_lt hlt, numeral_of_lt hlt, List.reverse_singleton]
      · have hmore : next value ≠ 0 := by
          intro hzero
          have hdiv := hnext value
          rw [hzero] at hdiv
          exact absurd hdiv.symm (Nat.div_pos hge (by omega)).ne'
        have hnumeral := numeral_of_le hb hge
        have hlength := congrArg List.length hnumeral
        rw [List.length_append, List.length_singleton] at hlength
        rw [if_pos hmore, ih (by rw [hnext]; omega) (by rw [hnext, List.length_append, List.length_singleton]; omega),
          hnext, hlow, hnumeral, List.reverse_append, List.reverse_singleton, List.append_assoc]

/-- The padding loop fills up to the width. -/
theorem putPadding_eq (ch : UInt8) (hfuel : width - c.length < n) (hwidth : width ≤ 64) :
    putPadding width ch n c = some (c ++ List.replicate (width - c.length) ch) := by
  induction n generalizing c with
  | zero => exact absurd hfuel (Nat.not_lt_zero _)
  | succ n ih =>
      rw [putPadding]
      by_cases hlt : c.length < width
      · have hrest : width - c.length = width - (c ++ [ch]).length + 1 := by
          rw [List.length_append, List.length_singleton]
          omega
        rw [if_pos ⟨hlt, by omega⟩, pushChar_of_lt (by omega), Option.bind_some, ih (by omega), hrest,
          List.replicate_succ, List.append_assoc]
        rfl
      · rw [if_neg (fun h => hlt h.1), show width - c.length = 0 by omega, List.replicate_zero, List.append_nil]

theorem decimal_low (v : UInt64) : (v % 10).toUInt8 + '0'.toUInt8 = (v.toNat % 10).digitChar.toUInt8 := by
  have hdigit : ∀ n < 10, UInt8.ofNat n + '0'.toUInt8 = n.digitChar.toUInt8 := by decide
  rw [← hdigit _ (Nat.mod_lt _ (by norm_num))]
  rfl

theorem hex_low (v : UInt64) : sym.getD (v &&& 0xf).toNat 0 = (v.toNat % 16).digitChar.toUInt8 := by
  have hdigit : ∀ n < 16, sym.getD n 0 = n.digitChar.toUInt8 := by decide
  have hmask : (v &&& 0xf).toNat = v.toNat % 16 := Nat.and_two_pow_sub_one_eq_mod v.toNat 4
  rw [hmask, hdigit _ (Nat.mod_lt _ (by norm_num))]

theorem decimalDigits_eq (v : UInt64) : decimalDigits v = some (numeral 10 v.toNat).reverse := by
  have hlength : (numeral 10 v.toNat).length ≤ 64 :=
    (numeral_length_le_iff (by norm_num) (by norm_num)).mpr (v.toNat_lt.trans (by norm_num))
  exact putDigits_eq (by norm_num) decimal_low (fun v => rfl) (by omega) (by simpa using hlength)

theorem hexDigits_eq (v : UInt64) : hexDigits v = some (numeral 16 v.toNat).reverse := by
  have hlength : (numeral 16 v.toNat).length ≤ 64 :=
    (numeral_length_le_iff (by norm_num) (by norm_num)).mpr (v.toNat_lt.trans (by norm_num))
  have hnext : ∀ v : UInt64, (v >>> 4).toNat = v.toNat / 16 := by
    intro v
    rw [UInt64.toNat_shiftRight, Nat.shiftRight_eq_div_pow]
    rfl
  exact putDigits_eq (by norm_num) hex_low hnext (by omega) (by simpa using hlength)

end Buffers

/-! ## Printed numbers -/

section Printed

variable {width : Nat} {zp : Bool} {v : UInt64}

theorem putPadding_width (hwidth : width ≤ 63) (c : List UInt8) (ch : UInt8) :
    putPadding width ch 65 c = some (c ++ List.replicate (width - c.length) ch) :=
  putPadding_eq ch (by omega) (by omega)

theorem printInteger_unsigned (hwidth : width ≤ 63) :
    printInteger v width 0 zp =
      some (List.replicate (width - (numeral 10 v.toNat).length) (paddingChar zp) ++ numeral 10 v.toNat) := by
  rw [printInteger, decimalDigits_eq]
  simp only [putPadding_width hwidth, Option.bind_some, Int.reduceNeg, Int.reduceEq, if_false, Option.map_some,
    List.reverse_append, List.reverse_reverse, List.reverse_replicate, List.length_reverse]

theorem printHex_eq (hwidth : width ≤ 63) :
    printHex v width zp =
      some (List.replicate (width - (numeral 16 v.toNat).length) (paddingChar zp) ++ numeral 16 v.toNat) := by
  rw [printHex, hexDigits_eq]
  simp only [putPadding_width hwidth, Option.bind_some, Option.map_some, List.reverse_append,
    List.reverse_reverse, List.reverse_replicate, List.length_reverse]

/-- A negative number before its characters are reversed. -/
theorem printInteger_negative (hwidth : width ≤ 63) :
    printInteger v width (-1) zp =
      some (((numeral 10 v.toNat).reverse ++
          List.replicate (width - (numeral 10 v.toNat).length) (paddingChar zp)).set
        (if zp then max width (numeral 10 v.toNat).length - 1 else (numeral 10 v.toNat).length)
        '-'.toUInt8).reverse := by
  have hdigits : (numeral 10 v.toNat).length ≤ 20 :=
    (numeral_length_le_iff (by norm_num) (by norm_num)).mpr (v.toNat_lt.trans (by norm_num))
  have hindex : (if zp then max width (numeral 10 v.toNat).length - 1 else (numeral 10 v.toNat).length) < 64 := by
    split <;> omega
  have hmax : (numeral 10 v.toNat).length + (width - (numeral 10 v.toNat).length) =
      max width (numeral 10 v.toNat).length := by omega
  rw [printInteger, decimalDigits_eq]
  simp only [putPadding_width hwidth, Option.bind_some, if_true, List.length_append, List.length_reverse,
    List.length_replicate, hmax, setChar, if_pos hindex, Option.map_some]

/-- A negative number with room for its sign. -/
theorem printInteger_of_room (hwidth : width ≤ 63) (hroom : (numeral 10 v.toNat).length < width) :
    printInteger v width (-1) zp =
      some (if zp then
          '-'.toUInt8 :: List.replicate (width - (numeral 10 v.toNat).length - 1) '0'.toUInt8 ++ numeral 10 v.toNat
        else List.replicate (width - (numeral 10 v.toNat).length - 1) ' '.toUInt8 ++
          '-'.toUInt8 :: numeral 10 v.toNat) := by
  rw [printInteger_negative hwidth]
  generalize numeral 10 v.toNat = digits at hroom
  obtain ⟨k, rfl⟩ := Nat.exists_eq_add_of_lt hroom
  have hk : digits.length + k + 1 - digits.length = k + 1 := by omega
  rw [hk, Nat.add_sub_cancel]
  cases zp with
  | true =>
      have hlast : max (digits.length + k + 1) digits.length - 1 = digits.length + k := by omega
      simp [hlast, paddingChar, List.replicate_succ', ← List.append_assoc]
  | false => simp [paddingChar, List.replicate_succ]

/-- What is printed of a negative number is as long as the width or the digits. -/
theorem printInteger_length (hwidth : width ≤ 63) {out : List UInt8} (h : printInteger v width (-1) zp = some out) :
    out.length = max width (numeral 10 v.toNat).length := by
  rw [printInteger_negative hwidth] at h
  cases h
  rw [List.length_reverse, List.length_set, List.length_append, List.length_reverse, List.length_replicate]
  omega

/-- The absolute value of a signed word, the most negative one too. -/
theorem abs_toNat (tmp : Int64) : (if tmp < 0 then -tmp else tmp).toUInt64.toNat = tmp.toInt.natAbs := by
  have hint : tmp.toInt = tmp.toBitVec.toInt := rfl
  have hlt : tmp.toBitVec.toNat < 2 ^ 64 := tmp.toBitVec.isLt
  have hneg : (-tmp).toUInt64.toNat = (2 ^ 64 - tmp.toBitVec.toNat) % 2 ^ 64 := BitVec.toNat_neg tmp.toBitVec
  have hself : tmp.toUInt64.toNat = tmp.toBitVec.toNat := rfl
  rw [BitVec.toInt_eq_toNat_cond] at hint
  by_cases hsign : tmp < 0
  · have htmp : tmp.toInt < 0 := Int64.lt_iff_toInt_lt.mp hsign
    rw [if_pos hsign, hneg]
    split at hint <;> omega
  · have htmp : 0 ≤ tmp.toInt := by
      by_contra hlt
      exact hsign (Int64.lt_iff_toInt_lt.mpr (by simpa using hlt))
    rw [if_neg hsign, hself]
    split at hint <;> omega

/-- The case of a negative number with no room for its sign. -/
theorem printSigned_length (hwidth : width ≤ 63) {tmp : Int64} (hneg : tmp.toInt < 0) {out : List UInt8}
    (h : printSigned tmp width zp = some out) :
    out.length = max width (numeral 10 tmp.toInt.natAbs).length := by
  have hsign : tmp < 0 := Int64.lt_iff_toInt_lt.mpr hneg
  have habs := abs_toNat tmp
  rw [printSigned, if_pos hsign] at h
  rw [if_pos hsign] at habs h
  rw [← habs]
  exact printInteger_length hwidth h

end Printed

/-! ## Directives -/

section Directives

variable {conv : Conversion} {width : Nat} {zp : Bool} {value : UInt64} {fmt : List UInt8} {args : List VaArg}

/-- What a conversion prints. -/
def Conversion.print (width : Nat) (zp : Bool) (value : UInt64) : Conversion → Option (List UInt8)
  | d => printSigned value.toInt64 width zp
  | u => printInteger value width 0 zp
  | x => printHex value width zp

theorem printConversion_char (conv : Conversion) :
    printConversion conv.char width zp (.word value :: args) = (conv.print width zp value).map (·, args) := by
  cases conv <;> rfl

/-- A numeral is read back as the width. -/
theorem paddingWidth_numeral (n : Nat) : paddingWidth 0 (numeral 10 n ++ fmt) = paddingWidth n fmt := by
  have hdigit : ∀ n < 10, '0'.toUInt8 ≤ n.digitChar.toUInt8 ∧ n.digitChar.toUInt8 ≤ '9'.toUInt8 ∧
      n.digitChar.toUInt8.toNat - '0'.toUInt8.toNat = n := by decide
  have hturn : ∀ width, ∀ n < 10, ∀ fmt,
      paddingWidth width (n.digitChar.toUInt8 :: fmt) = paddingWidth (width * 10 + n) fmt := by
    intro width n hn fmt
    obtain ⟨hlow, hhigh, hvalue⟩ := hdigit n hn
    rw [paddingWidth, if_pos ⟨hlow, hhigh⟩, hvalue]
  induction n using Nat.strong_induction_on generalizing fmt with
  | _ n ih =>
      rcases Nat.lt_or_ge n 10 with hlt | hge
      · rw [numeral_of_lt hlt, List.singleton_append, hturn 0 n hlt, Nat.zero_mul, Nat.zero_add]
      · rw [numeral_of_le (by norm_num) hge, List.append_assoc, ih (n / 10) (by omega), List.singleton_append,
          hturn _ _ (Nat.mod_lt _ (by norm_num)), Nat.div_add_mod']

/-- The width of a directive. -/
def widthText (width : Nat) : List UInt8 := if width = 0 then [] else numeral 10 width

theorem widthDirective_eq :
    widthDirective zp (widthText width ++ conv.char :: fmt) (.word value :: args) =
      (conv.print width zp value).map (·, fmt, args) := by
  have hchar : ¬ ('0'.toUInt8 ≤ conv.char ∧ conv.char ≤ '9'.toUInt8) := by
    cases conv <;> decide
  have hwidth : paddingWidth 0 (widthText width ++ conv.char :: fmt) = (width, conv.char :: fmt) := by
    rw [widthText]
    split
    case isTrue hzero => rw [List.nil_append, paddingWidth, if_neg hchar, hzero]
    case isFalse => rw [paddingWidth_numeral, paddingWidth, if_neg hchar]
  rw [widthDirective, hwidth]
  simp only [printConversion_char, Option.map_map, Function.comp_def]

/-- A directive behind its `%`, up to its conversion. -/
theorem printDirective_eq :
    printDirective ((if zp then ['0'.toUInt8] else []) ++ widthText width ++ conv.char :: fmt)
        (.word value :: args) = (conv.print width zp value).map (·, fmt, args) := by
  cases zp with
  | true =>
      rw [← widthDirective_eq]
      rfl
  | false =>
      have hplain : ∀ ch rest, ch ≠ '%'.toUInt8 → ch ≠ 'c'.toUInt8 → ch ≠ 's'.toUInt8 → ch ≠ '0'.toUInt8 →
          printDirective (ch :: rest) (.word value :: args) =
            widthDirective false (ch :: rest) (.word value :: args) := by
        intro ch rest hpercent hc hs hzero
        rw [printDirective, if_neg hpercent, if_neg hc, if_neg hs, if_neg hzero]
      rw [← widthDirective_eq]
      simp only [Bool.false_eq_true, if_false, List.nil_append]
      rw [widthText]
      split
      case isTrue => cases conv <;> exact hplain _ _ (by decide) (by decide) (by decide) (by decide)
      case isFalse hpos =>
          obtain ⟨d, rest, heq, hlow, hhigh⟩ := numeral_head (Nat.pos_of_ne_zero hpos)
          rw [heq, List.cons_append]
          apply hplain <;> rintro rfl <;> revert hlow hhigh <;> decide

/-- A turn at the beginning of a format. -/
theorem vaKprint_of_turn {ch : UInt8} {r : List UInt8 × List UInt8 × List VaArg}
    (h : kprintTurn ch fmt args = some r) :
    vaKprint (ch :: fmt) args = (vaKprint r.2.1 r.2.2).map (r.1 ++ ·) := by
  rw [vaKprint]
  split
  case h_1 hnone => exact absurd (hnone.symm.trans h) (by simp)
  case h_2 r' hsome => rw [Option.some.inj (hsome.symm.trans h)]

/-- A character outside of directives. -/
theorem vaKprint_plain {ch : UInt8} (h : ch ≠ '%'.toUInt8) :
    vaKprint (ch :: fmt) args = (vaKprint fmt args).map ([ch] ++ ·) :=
  vaKprint_of_turn (if_pos h)

/-- The directive `%c`. -/
theorem vaKprint_char (w : UInt64) :
    vaKprint ('%'.toUInt8 :: 'c'.toUInt8 :: fmt) (.word w :: args) =
      (vaKprint fmt args).map ([w.toUInt8] ++ ·) := by
  apply vaKprint_of_turn (r := ([w.toUInt8], fmt, args))
  rw [kprintTurn, if_neg (not_not_intro rfl), printDirective, if_neg (by decide), if_pos rfl]
  rfl

theorem vaKprint_directive {out : List UInt8} (h : conv.print width zp value = some out) :
    vaKprint (conv.directive width zp ++ fmt) (.word value :: args) = (vaKprint fmt args).map (out ++ ·) := by
  have hturn : kprintTurn '%'.toUInt8
      ((if zp then ['0'.toUInt8] else []) ++ widthText width ++ conv.char :: fmt) (.word value :: args) =
        some (out, fmt, args) := by
    rw [kprintTurn, if_neg (not_not_intro rfl), printDirective_eq, h]
    rfl
  have hsplit : conv.directive width zp ++ fmt =
      '%'.toUInt8 :: ((if zp then ['0'.toUInt8] else []) ++ widthText width ++ conv.char :: fmt) := by
    simp [Conversion.directive, widthText]
  rw [hsplit]
  exact vaKprint_of_turn hturn

/-- An unsigned number is printed padded. -/
theorem padded_unsigned (digits : List UInt8) (width : Nat) (zp : Bool) :
    (if zp then [] ++ List.replicate (width - (0 + digits.length)) '0'.toUInt8 ++ digits
      else List.replicate (width - (0 + digits.length)) ' '.toUInt8 ++ [] ++ digits) =
      List.replicate (width - digits.length) (paddingChar zp) ++ digits := by
  cases zp <;> simp [paddingChar]

theorem print_of_fits (hwidth : width ≤ 63) (hfits : conv.Fits width value) :
    conv.print width zp value = some (conv.padded width zp value) := by
  cases conv with
  | u =>
      rw [Conversion.print, printInteger_unsigned hwidth]
      exact congrArg some (padded_unsigned _ width zp).symm
  | x =>
      rw [Conversion.print, printHex_eq hwidth]
      exact congrArg some (padded_unsigned _ width zp).symm
  | d =>
      have habs := abs_toNat value.toInt64
      by_cases hsign : value.toInt64 < 0
      · have hneg : value.toInt64.toInt < 0 := Int64.lt_iff_toInt_lt.mp hsign
        have hroom : (numeral 10 value.toInt64.toInt.natAbs).length < width :=
          (numeral_length_lt_iff (by norm_num) (by omega)).mpr (hfits hneg)
        rw [if_pos hsign] at habs
        rw [Conversion.print, printSigned, if_pos hsign, if_pos hsign,
          printInteger_of_room hwidth (by rwa [habs]), habs, Conversion.padded, Conversion.parts]
        simp only [if_pos hneg, List.length_singleton, Nat.add_comm 1, Nat.sub_sub]
        cases zp <;> simp
      · have hpos : ¬ value.toInt64.toInt < 0 := fun hneg => hsign (Int64.lt_iff_toInt_lt.mpr hneg)
        rw [if_neg hsign] at habs
        rw [Conversion.print, printSigned, if_neg hsign, if_neg hsign, printInteger_unsigned hwidth, habs,
          Conversion.padded, Conversion.parts]
        simp only [if_neg hpos, List.length_nil]
        exact congrArg some (padded_unsigned _ width zp).symm

/-- What is promised of a negative number is longer than its digits. -/
theorem padded_length (hneg : value.toInt64.toInt < 0) :
    (numeral 10 value.toInt64.toInt.natAbs).length < (Conversion.d.padded width zp value).length := by
  rw [Conversion.padded, Conversion.parts]
  simp only [if_pos hneg]
  cases zp with
  | true => simp
  | false =>
      simp
      omega

/-- A directive prints the padded representation of its argument, unless this is a negative number with as
many digits as the width. -/
theorem kprint_formats_iff (conv : Conversion) (width : Nat) (zp : Bool) (value : UInt64) (h : width ≤ 63) :
    conv.Formats width zp value ↔ conv.Fits width value := by
  constructor
  · intro hformats
    cases conv with
    | u => trivial
    | x => trivial
    | d =>
        intro hneg
        have hsign : value.toInt64 < 0 := Int64.lt_iff_toInt_lt.mpr hneg
        have hprint : ∃ out, Conversion.d.print width zp value = some out := by
          rw [Conversion.print, printSigned, if_pos hsign, if_pos hsign, printInteger_negative h]
          exact ⟨_, rfl⟩
        obtain ⟨out, hout⟩ := hprint
        have hrun := hformats [] []
        rw [vaKprint_directive hout, vaKprint, Option.map_some, Option.map_some, Option.some.injEq,
          List.append_nil, List.append_nil] at hrun
        have hlength := printSigned_length h hneg hout
        have hlong := @padded_length width zp value hneg
        rw [← hrun, hlength] at hlong
        exact (numeral_length_lt_iff (by norm_num) (by omega)).mp (by omega)
  · intro hfits fmt args
    exact vaKprint_directive (print_of_fits h hfits)

/-- `-5` in four places, with zeros. -/
theorem minus_five_padded : Conversion.d.Formats 4 true (-5) :=
  (kprint_formats_iff .d 4 true (-5) (by norm_num)).mpr (fun _ => by decide)

/-- The sign of `-5` is not printed without a width. -/
theorem minus_five_unsigned : ¬ ∀ (conv : Conversion) (width : Nat) (zp : Bool) (value : UInt64), width ≤ 63 →
    conv.Formats width zp value := by
  intro hall
  have hneg : (-5 : UInt64).toInt64.toInt < 0 := by decide
  have hprint : Conversion.d.print 0 false (-5) = some ['5'.toUInt8] := by decide
  have hrun := hall .d 0 false (-5) (by norm_num) [] []
  rw [vaKprint_directive hprint, vaKprint, Option.map_some, Option.map_some] at hrun
  exact absurd hrun (by decide)

end Directives

end Kernel
end Micael
