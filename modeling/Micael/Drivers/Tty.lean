import Micael.Kernel.Kprint
import Micael.Kernel.Machine
import Micael.Kernel.Util

/-!
# Reading a line from the terminal

`__tty_read` takes one character after another from the keyboard file, keeps them in the caller's buffer and
echoes them.  The keyboard file delivers a stream; a read from an empty stream does not return.  The caller's
buffer is the memory from address zero on; no buffer has `2^63` bytes, so that a length is a number here.

Main results:

- Theorem {lit}`readLine_isSome_iff`: which streams end a line.
- Theorem {lit}`ttyReadLoop_eq`: the loop follows the reference fold.
- Theorem {lit}`tty_read_line`: a read returns the line, and its echo spells it.
-/

namespace Micael
namespace Drivers

open Foundation Kernel

/-- `'\n'`. -/
def newline : UInt8 := '\n'.toUInt8

/-- `'\b'`. -/
def backspace : UInt8 := 8

/-! ## The read -/

/-- `struct file`: whether `f_private` is set, and `f_mode`. -/
structure TtyFile where
  f_private : Bool
  f_mode : Nat

/-- `O_WRONLY`. -/
def oWronly : Nat := 8

/-- The variables of `__tty_read`, and what was handed to `tty_putc` so far. -/
structure TtyLoop where
  i : Nat
  c : UInt8
  buf : Memory
  echo : List UInt8

/-- `kprint`, in the loop. -/
def TtyLoop.print (s : TtyLoop) (fmt : List UInt8) (args : List VaArg) : Option TtyLoop :=
  (kprint fmt args).map fun out => { s with echo := s.echo ++ out }

/-- The format `"%c"`. -/
def charFormat : List UInt8 := ['%'.toUInt8, 'c'.toUInt8]

/-- A character as an argument: its sign is extended. -/
def charArg (ch : UInt8) : VaArg := .word ch.toInt8.toInt64.toUInt64

/-- `((char *)buf)[--i] = '\0'`, and the echo. -/
def TtyLoop.erase (s : TtyLoop) : Option TtyLoop :=
  if s.i ≠ 0 then
    { s with i := s.i - 1, buf := putByte s.buf (s.i - 1) 0 : TtyLoop }.print [backspace] []
  else some s

/-- `((char *)buf)[i] = c`, the echo, and `i++`. -/
def TtyLoop.put (s : TtyLoop) : Option TtyLoop :=
  let s := { s with buf := putByte s.buf s.i s.c }
  (s.print charFormat [charArg (s.buf s.i)]).map fun s => { s with i := s.i + 1 }

/-- The loop of `__tty_read`, with the characters that are going to be delivered: its variables when it ends,
and the characters that were not read. -/
def ttyReadLoop (size : Nat) (s : TtyLoop) : List UInt8 → Option (TtyLoop × List UInt8)
  | [] => if s.c ≠ newline ∧ s.i < size then none else some (s, [])
  | ch :: stream =>
      if s.c ≠ newline ∧ s.i < size then
        let s := { s with c := ch }
        if ch = newline then (s.print [newline] []).map (·, stream)
        else if ch = backspace then s.erase.bind fun s => ttyReadLoop size s stream
        else s.put.bind fun s => ttyReadLoop size s stream
      else some (s, ch :: stream)

/-- `__tty_read`: what it returns, and the loop when it ended. -/
def ttyRead (file : Option TtyFile) (size : Nat) (buf : Option Memory) (stream : List UInt8) :
    Option (Except Errno Nat × Option (TtyLoop × List UInt8)) :=
  match file, buf with
  | some file, some buf =>
      if file.f_private = false then some (.error .einval, none)
      else if file.f_mode &&& oWronly ≠ 0 then some (.error .enotsup, none)
      else (ttyReadLoop size ⟨0, 0, buf, []⟩ stream).map fun r => (.ok r.1.i, some r)
  | _, _ => some (.error .einval, none)

/-! ## The reference -/

/-- One character on a line: a backspace deletes the last character, if any. -/
def lineEdit (text : List UInt8) (c : UInt8) : List UInt8 :=
  if c = backspace then text.dropLast else text ++ [c]

/-- What characters spell. -/
def spell (chars : List UInt8) : List UInt8 := chars.foldl lineEdit []

/-- A line of at most `size` characters, and a stream: the text, whether a newline ended it, and the rest of
the stream. -/
def readLine (size : Nat) (text : List UInt8) : List UInt8 → Option (List UInt8 × Bool × List UInt8)
  | [] => if text.length < size then none else some (text, false, [])
  | c :: stream =>
      if text.length < size then
        if c = newline then some (text, true, stream) else readLine size (lineEdit text c) stream
      else some (text, false, c :: stream)

/-- The stream contains a newline, or enough characters to fill the buffer. -/
def EndsLine (size : Nat) (stream : List UInt8) : Prop :=
  newline ∈ stream ∨ ∃ chars, chars <+: stream ∧ size ≤ (spell chars).length

/-! ## Lines -/

section Lines

variable {size : Nat} {text stream : List UInt8} {c : UInt8}

@[simp]
theorem spell_nil : spell [] = [] :=
  rfl

/-- One more character. -/
theorem spell_append_singleton (chars : List UInt8) (c : UInt8) :
    spell (chars ++ [c]) = lineEdit (spell chars) c := by
  rw [spell, List.foldl_append, List.foldl_cons, List.foldl_nil, spell]

/-- A newline, or enough characters after a text. -/
def EndsLineAfter (size : Nat) (text stream : List UInt8) : Prop :=
  newline ∈ stream ∨ ∃ chars, chars <+: stream ∧ size ≤ (chars.foldl lineEdit text).length

theorem endsLineAfter_nil : EndsLineAfter size text [] ↔ size ≤ text.length := by
  constructor
  · rintro (hmem | ⟨chars, hchars, hsize⟩)
    · exact absurd hmem List.not_mem_nil
    · rw [List.prefix_nil] at hchars
      rwa [hchars] at hsize
  · intro hsize
    exact Or.inr ⟨[], List.prefix_rfl, hsize⟩

theorem endsLineAfter_cons (hroom : text.length < size) (hc : c ≠ newline) :
    EndsLineAfter size text (c :: stream) ↔ EndsLineAfter size (lineEdit text c) stream := by
  constructor
  · rintro (hmem | ⟨chars, hchars, hsize⟩)
    · exact Or.inl (List.mem_of_ne_of_mem hc.symm hmem)
    · cases chars with
      | nil => exact absurd hroom (Nat.not_lt.mpr hsize)
      | cons d chars =>
          obtain ⟨rfl, hrest⟩ := List.cons_prefix_cons.mp hchars
          exact Or.inr ⟨chars, hrest, hsize⟩
  · rintro (hmem | ⟨chars, hchars, hsize⟩)
    · exact Or.inl (List.mem_cons_of_mem c hmem)
    · exact Or.inr ⟨c :: chars, List.cons_prefix_cons.mpr ⟨rfl, hchars⟩, hsize⟩

/-- The fold ends just on the streams that end a line. -/
theorem readLine_isSome_iff : (readLine size text stream).isSome ↔ EndsLineAfter size text stream := by
  induction stream generalizing text with
  | nil =>
      rw [readLine, endsLineAfter_nil]
      split <;> simp <;> omega
  | cons c stream ih =>
      rw [readLine]
      split
      case isTrue hroom =>
          split
          case isTrue hnewline => exact iff_of_true rfl (Or.inl (hnewline ▸ List.mem_cons_self))
          case isFalse hc => rw [ih, endsLineAfter_cons hroom hc]
      case isFalse hroom => exact iff_of_true rfl (Or.inr ⟨[], List.nil_prefix, by simpa using hroom⟩)

/-- The fold takes the characters of the line, and the newline that ended it. -/
theorem readLine_consumed {text' rest : List UInt8} {ended : Bool}
    (h : readLine size text stream = some (text', ended, rest)) :
    ∃ chars, stream = chars ++ (if ended then [newline] else []) ++ rest ∧
      text' = chars.foldl lineEdit text := by
  induction stream generalizing text with
  | nil =>
      rw [readLine] at h
      split at h
      · cases h
      · cases h
        exact ⟨[], rfl, rfl⟩
  | cons c stream ih =>
      rw [readLine] at h
      split at h
      · split at h
        case isTrue hnewline =>
            cases h
            exact ⟨[], by rw [hnewline]; rfl, rfl⟩
        case isFalse =>
            obtain ⟨chars, hstream, htext⟩ := ih h
            exact ⟨c :: chars, by rw [hstream]; rfl, htext⟩
      · cases h
        exact ⟨[], rfl, rfl⟩

end Lines

/-! ## The loop -/

section Loop

variable {size : Nat} {text stream : List UInt8} {buf : Memory} {s : TtyLoop}

/-- The loop holds a text. -/
structure TtyLoop.Holds (s : TtyLoop) (size : Nat) (buf : Memory) (text : List UInt8) : Prop where
  /-- The index is the length. -/
  index : s.i = text.length
  fits : text.length ≤ size
  /-- The buffer holds the text, and nothing behind the buffer was written. -/
  bytes : s.buf.bytes 0 s.i = text
  frame : ∀ x, size ≤ x → s.buf x = buf x
  /-- The echo spells the text. -/
  echo : spell s.echo = text

theorem kprint_singleton {c : UInt8} (h : c ≠ '%'.toUInt8) : kprint [c] [] = some [c] := by
  rw [kprint, vaKprint_plain h, vaKprint, Option.map_some, List.append_nil]

theorem kprint_char (c : UInt8) : kprint charFormat [charArg c] = some [c] := by
  have hbyte : c.toInt8.toInt64.toUInt64.toUInt8 = c := by
    have hall : ∀ n < 256, (UInt8.ofNat n).toInt8.toInt64.toUInt64.toUInt8 = UInt8.ofNat n := by
      decide +kernel
    have hc := hall c.toNat c.toNat_lt
    rwa [UInt8.ofNat_toNat] at hc
  rw [kprint, charFormat, charArg, vaKprint_char, vaKprint, Option.map_some, hbyte, List.append_nil]

theorem lineEdit_backspace : lineEdit text backspace = text.dropLast :=
  if_pos rfl

theorem lineEdit_of_ne {c : UInt8} (h : c ≠ backspace) : lineEdit text c = text ++ [c] :=
  if_neg h

/-- A byte behind a window. -/
theorem bytes_succ (mem : Memory) (n : Nat) : mem.bytes 0 (n + 1) = mem.bytes 0 n ++ [mem n] := by
  rw [Memory.bytes_add]
  simp [Memory.bytes]

/-- A backspace. -/
theorem TtyLoop.Holds.erase (h : s.Holds size buf text) :
    ∃ s', s.erase = some s' ∧ s'.c = s.c ∧ s'.Holds size buf (lineEdit text backspace) := by
  rw [TtyLoop.erase, lineEdit_backspace]
  split
  case isTrue hpos =>
      rw [TtyLoop.print, kprint_singleton (by decide)]
      refine ⟨_, rfl, rfl, ?_⟩
      have hlength : text.dropLast.length = s.i - 1 := by rw [List.length_dropLast, h.index]
      constructor
      case index => exact hlength.symm
      case fits => exact hlength ▸ (Nat.sub_le _ _).trans (h.index ▸ h.fits)
      case bytes =>
          have hkept : (putByte s.buf (s.i - 1) 0).bytes 0 (s.i - 1) = s.buf.bytes 0 (s.i - 1) := by
            apply Memory.bytes_eq_of_apply
            intro j hj
            rw [putByte_apply, if_neg (by omega)]
          have hsplit := bytes_succ s.buf (s.i - 1)
          rw [Nat.sub_add_cancel (Nat.pos_of_ne_zero hpos), h.bytes] at hsplit
          exact hkept.trans (by rw [hsplit, List.dropLast_concat])
      case frame =>
          intro x hx
          have hfits := h.index ▸ h.fits
          exact (putByte_apply _ _ _ _).trans ((if_neg (by omega)).trans (h.frame x hx))
      case echo => exact (spell_append_singleton _ _).trans (by rw [h.echo, lineEdit_backspace])
  case isFalse hzero =>
      have hnil : text = [] := List.length_eq_zero_iff.mp (h.index ▸ not_not.mp hzero)
      exact ⟨s, rfl, rfl, by rw [hnil] at h ⊢; exact h⟩

/-- Another character. -/
theorem TtyLoop.Holds.put (h : s.Holds size buf text) (hroom : s.i < size) (hc : s.c ≠ backspace) :
    ∃ s', s.put = some s' ∧ s'.c = s.c ∧ s'.Holds size buf (lineEdit text s.c) := by
  have hwritten : putByte s.buf s.i s.c s.i = s.c := by rw [putByte_apply, if_pos rfl]
  rw [TtyLoop.put, lineEdit_of_ne hc]
  simp only [TtyLoop.print, hwritten, kprint_char, Option.map_some]
  refine ⟨_, rfl, rfl, ?_⟩
  constructor
  case index => rw [List.length_append, List.length_singleton, h.index]
  case fits => rwa [List.length_append, List.length_singleton, ← h.index]
  case bytes =>
      have hkept : (putByte s.buf s.i s.c).bytes 0 s.i = s.buf.bytes 0 s.i := by
        apply Memory.bytes_eq_of_apply
        intro j hj
        rw [putByte_apply, if_neg (by omega)]
      have hlast : [putByte s.buf s.i s.c s.i] = [s.c] := congrArg (fun byte => [byte]) hwritten
      exact (bytes_succ _ _).trans (congrArg₂ (· ++ ·) (hkept.trans h.bytes) hlast)
  case frame =>
      intro x hx
      exact (putByte_apply _ _ _ _).trans ((if_neg (by omega)).trans (h.frame x hx))
  case echo => exact (spell_append_singleton _ _).trans (by rw [h.echo, lineEdit_of_ne hc])

/-- What a line that was read leaves. -/
structure TtyLoop.Ends (s : TtyLoop) (size : Nat) (buf : Memory) (text : List UInt8) (ended : Bool) : Prop where
  length : s.i = text.length
  bytes : s.buf.bytes 0 s.i = text
  frame : ∀ x, size ≤ x → s.buf x = buf x
  /-- The echo spells the text, with the newline that ended it. -/
  echo : spell s.echo = text ++ if ended then [newline] else []

/-- The loop follows the reference fold. -/
theorem ttyReadLoop_eq {text' rest : List UInt8} {ended : Bool} (h : s.Holds size buf text) (hc : s.c ≠ newline)
    (hline : readLine size text stream = some (text', ended, rest)) :
    ∃ s', ttyReadLoop size s stream = some (s', rest) ∧ s'.Ends size buf text' ended := by
  induction stream generalizing s text with
  | nil =>
      rw [readLine] at hline
      split at hline
      case isTrue => cases hline
      case isFalse hfull =>
          cases hline
          have hstop : ¬ (s.c ≠ newline ∧ s.i < size) := fun hgo => hfull (h.index ▸ hgo.2)
          refine ⟨s, by rw [ttyReadLoop, if_neg hstop], h.index, h.bytes, h.frame, ?_⟩
          rw [h.echo]
          exact (List.append_nil _).symm
  | cons ch stream ih =>
      rw [readLine] at hline
      rw [ttyReadLoop]
      split at hline
      case isFalse hfull =>
          cases hline
          have hstop : ¬ (s.c ≠ newline ∧ s.i < size) := fun hgo => hfull (h.index ▸ hgo.2)
          refine ⟨s, by rw [if_neg hstop], h.index, h.bytes, h.frame, ?_⟩
          rw [h.echo]
          exact (List.append_nil _).symm
      case isTrue hroom =>
          have hnext : { s with c := ch : TtyLoop }.Holds size buf text :=
            ⟨h.index, h.fits, h.bytes, h.frame, h.echo⟩
          rw [← h.index] at hroom
          rw [if_pos ⟨hc, hroom⟩]
          split at hline
          case isTrue hnewline =>
              cases hline
              simp only [if_pos hnewline, TtyLoop.print, kprint_singleton (c := newline) (by decide), Option.map_some]
              refine ⟨_, rfl, h.index, h.bytes, h.frame, ?_⟩
              refine (spell_append_singleton _ _).trans ?_
              rw [h.echo, lineEdit_of_ne (by decide)]
              rfl
          case isFalse hch =>
              simp only [if_neg hch]
              by_cases hback : ch = backspace
              · obtain ⟨s', herase, hc', hholds⟩ := hnext.erase
                rw [hback] at hline
                simp only [if_pos hback, herase, Option.bind_some]
                exact ih hholds (hc' ▸ hch) hline
              · obtain ⟨s', hput, hc', hholds⟩ := hnext.put hroom hback
                simp only [if_neg hback, hput, Option.bind_some]
                exact ih hholds (hc' ▸ hch) hline

/-- A read of a stream that ends a line returns the line of the reference fold: its length and its text.  It takes
the characters of the line and the newline that ended it from the stream, and its echo spells the line.  Nothing
behind the buffer changes. -/
theorem tty_read_line (file : TtyFile) (size : Nat) (buf : Memory) (stream : List UInt8)
    (h : EndsLine size stream) (hkbd : file.f_private = true) (hmode : file.f_mode &&& oWronly = 0) :
    ∃ s chars ended rest, readLine size [] stream = some (spell chars, ended, rest) ∧
      stream = chars ++ (if ended then [newline] else []) ++ rest ∧
      ttyRead (some file) size (some buf) stream = some (.ok (spell chars).length, some (s, rest)) ∧
      s.Ends size buf (spell chars) ended := by
  obtain ⟨⟨text, ended, rest⟩, hline⟩ := Option.isSome_iff_exists.mp (readLine_isSome_iff.mpr h)
  obtain ⟨chars, hstream, rfl⟩ := readLine_consumed hline
  have hstart : (⟨0, 0, buf, []⟩ : TtyLoop).Holds size buf [] :=
    ⟨rfl, Nat.zero_le size, rfl, fun x _ => rfl, rfl⟩
  obtain ⟨s, hloop, hends⟩ := ttyReadLoop_eq hstart (show (0 : UInt8) ≠ newline by decide) hline
  refine ⟨s, chars, ended, rest, hline, hstream, ?_, hends⟩
  rw [ttyRead, if_neg (by rw [hkbd]; decide), if_neg (not_not_intro hmode), hloop]
  exact congrArg (fun n => some (Except.ok n, some (s, rest))) hends.length

/-- A line with a character that is deleted again; what follows the newline stays in the stream. -/
theorem tty_read_corrected : ∃ s,
    ttyRead (some ⟨true, 2⟩) 4 (some fun _ => 0) [97, 98, 8, 99, newline, 100] = some (.ok 2, some (s, [100])) ∧
      s.Ends 4 (fun _ => 0) [97, 99] true := by
  obtain ⟨s, chars, ended, rest, hline, -, hread, hends⟩ :=
    tty_read_line ⟨true, 2⟩ 4 (fun _ => 0) [97, 98, 8, 99, newline, 100] (.inl (by decide)) rfl (by decide)
  have hfold : readLine 4 [] [97, 98, 8, 99, newline, 100] = some ([97, 99], true, [100]) := by decide
  obtain ⟨htext, hended, rfl⟩ : spell chars = [97, 99] ∧ ended = true ∧ rest = [100] := by
    simpa using hline.symm.trans hfold
  rw [htext] at hread hends
  rw [hended] at hends
  exact ⟨s, hread, hends⟩

end Loop

end Drivers
end Micael
