import Mathlib.Tactic
import Micael.Fs.Initramfs

/-!
# Reads inside a file of the initramfs

`initramfs_file_read` moves the position of the file by its offset and only then compares the end of the
read with the size, so that a read that is refused has moved the position.  The bounds are compared in 64
signed bits: an offset of `-2^63` or a sum from `2^63` on passes them, and a count from about `2^63` on is
negative when it is compared.  The size is an `int` there.

A file is the memory behind its header; its size is what the header says, an unsigned number of 32 bits.

Main results:

- Theorem {lit}`RamFile.seek_cases`: what a seek does from a position inside the file.
- Theorem {lit}`RamCall.right_iff`: when one call is right.
- Theorem {lit}`ram_reads_inside_iff`: when all calls of a run are right.
-/

namespace Micael
namespace Fs

open Foundation Kernel Toolchain

/-! ## Calls on an open file -/

/-- A regular file of this size, just opened; its header is at {lit}`pstart`. -/
def openedRamFile (pstart : Nat) (size : UInt32) : RamFile := ⟨0, intOfU32 size.toNat, pstart⟩

/-- `file_seek`, and `file_read` into memory at {lit}`buf`, which may be null. -/
inductive RamCall
  | seek (off : Int64)
  | read (off : Int64) (count : UInt64) (buf : Option Memory)

/-- The file after a seek. -/
def RamFile.afterSeek (file : RamFile) (off : Int) : RamFile :=
  match file.seek off with
  | .ok moved => moved
  | .error _ => file

/-- The file after a call: `initramfs_file_read` has moved the position before its last check. -/
def RamCall.after (file : RamFile) : RamCall → RamFile
  | .seek off => file.afterSeek off.toInt
  | .read _ _ none => file
  | .read off _ (some _) => file.afterSeek off.toInt

/-- The bytes of a file. -/
def RamFile.bytesAt (file : RamFile) (mem : Memory) (pos count : Nat) : List UInt8 :=
  mem.bytes (file.pstart + fileHeaderSize + pos) count

/-- What a call does is right: the position is in the file, an error leaves it as it was, and a read copies
the bytes behind it, which are in the file, and nothing else. -/
def RamCall.Right (mem : Memory) (size : UInt32) (file : RamFile) (call : RamCall) : Prop :=
  (0 ≤ (call.after file).pos ∧ (call.after file).pos ≤ size.toNat) ∧
    match call with
    | .seek off => ∀ e, file.seek off.toInt = .error e → (call.after file).pos = file.pos
    | .read off count buf =>
        match initramfsFileRead mem (some file) off.toInt count.toNat buf with
        | .error _ => (call.after file).pos = file.pos
        | .ok (n, moved, buf') =>
            n = count.toNat ∧ moved = call.after file ∧ moved.pos + count.toNat ≤ size.toNat ∧
              ∃ dst, buf = some dst ∧
                buf'.bytes 0 count.toNat = file.bytesAt mem moved.pos.toNat count.toNat ∧
                ∀ x, count.toNat ≤ x → buf' x = dst x

/-- All calls of a run are right. -/
def RunRight (mem : Memory) (size : UInt32) : RamFile → List RamCall → Prop
  | _, [] => True
  | file, call :: calls =>
      call.Right mem size file ∧ RunRight mem size (call.after file) calls

/-! ## The condition -/

/-- The offset and the new position are numbers of 64 bits that do not wrap. -/
def SeekKept (pos off : Int) : Prop := -2 ^ 63 < off ∧ pos + off < 2 ^ 63

/-- A read from position `pos` with an offset: the new position is not in the file; or the file has an
`int` for its size and as many bytes behind the new position; or the position is not moved, and the read is
refused, as the end of the read does not wrap either. -/
def ReadKept (size count : Nat) (pos off : Int) : Prop :=
  SeekKept pos off ∧
    ((pos + off < 0 ∨ size < pos + off) ∨ (size < 2 ^ 31 ∧ pos + off + count ≤ size) ∨
      off = 0 ∧
        if size < 2 ^ 31 then size < pos + count ∧ pos + count < 2 ^ 63
        else pos + count < 2 ^ 63 ∨ 2 ^ 64 - 2 ^ 32 + size < pos + count)

/-- The condition for a call from a position. -/
def RamCall.Kept (size : UInt32) (pos : Int) : RamCall → Prop
  | .seek off => SeekKept pos off.toInt
  | .read _ _ none => True
  | .read off count (some _) => ReadKept size.toNat count.toNat pos off.toInt

/-- The condition for every call of a run. -/
def RunKept (size : UInt32) : RamFile → List RamCall → Prop
  | _, [] => True
  | file, call :: calls => call.Kept size file.pos ∧ RunKept size (call.after file) calls

/-! ## Seeks -/

/-- A file of a size with its position inside. -/
structure RamFile.Inside (file : RamFile) (size : UInt32) : Prop where
  size_eq : file.size = intOfU32 size.toNat
  pos_nonneg : 0 ≤ file.pos
  pos_le : file.pos ≤ size.toNat

section Seeks

variable {file : RamFile} {size : UInt32} {off : Int}

/-- The size as the seek compares it is that of the header. -/
theorem intOfU32_mod (size : UInt32) : intOfU32 size.toNat % 2 ^ 32 = size.toNat := by
  have hsize := size.toNat_lt
  unfold intOfU32
  rw [Int.bmod_def]
  push_cast
  split
  · omega
  · omega

theorem ssizeOfInt_eq {z : Int} (hlow : -2 ^ 63 ≤ z) (hhigh : z < 2 ^ 63) : ssizeOfInt z = z := by
  rw [ssizeOfInt, Int.bmod_eq_of_le (by omega) (by omega)]

theorem ssizeOfInt_wraps {z : Int} (hlow : 2 ^ 63 ≤ z) (hhigh : z < 2 ^ 64 + 2 ^ 63) :
    ssizeOfInt z = z - 2 ^ 64 := by
  have hshift : z = z - 2 ^ 64 + ((2 ^ 64 : Nat) : Int) := by
    push_cast
    omega
  rw [ssizeOfInt, hshift, Int.add_bmod_right, ← hshift]
  exact ssizeOfInt_eq (by omega) (by omega)

/-- Without a wrap, a seek moves the position to where it should, if that is in the file. -/
theorem RamFile.seek_kept (h : file.Inside size) (hkept : SeekKept file.pos off) :
    file.seek off =
      if file.pos + off < 0 ∨ size.toNat < file.pos + off then .error .espipe
      else .ok { file with pos := file.pos + off } := by
  have hsize := size.toNat_lt
  have hlow := h.pos_nonneg
  have hhigh := h.pos_le
  obtain ⟨hoff, hsum⟩ := hkept
  rw [RamFile.seek, h.size_eq, intOfU32_mod, ssizeOfInt_eq (z := -off) (by omega) (by omega),
    ssizeOfInt_eq (by omega) hsum]
  refine if_congr ?_ rfl rfl
  omega

/-- With a wrap, a seek moves the position below zero. -/
theorem RamFile.seek_wraps (h : file.Inside size) (hlow : -2 ^ 63 ≤ off) (hhigh : off < 2 ^ 63)
    (hwraps : ¬ SeekKept file.pos off) :
    ∃ pos < 0, file.seek off = .ok { file with pos := pos } := by
  have hsize := size.toNat_lt
  have hnonneg := h.pos_nonneg
  have hle := h.pos_le
  by_cases hmin : off = -2 ^ 63
  · -- The negation of the least offset is the least offset.
    subst hmin
    have hneg : ssizeOfInt (- -2 ^ 63) = -2 ^ 63 := by decide
    refine ⟨file.pos + -2 ^ 63, by omega, ?_⟩
    rw [RamFile.seek, h.size_eq, intOfU32_mod, hneg, ssizeOfInt_eq (by omega) (by omega),
      if_neg (by omega)]
  · have hover : 2 ^ 63 ≤ file.pos + off := by
      by_contra hsum
      exact hwraps ⟨by omega, by omega⟩
    refine ⟨file.pos + off - 2 ^ 64, by omega, ?_⟩
    rw [RamFile.seek, h.size_eq, intOfU32_mod, ssizeOfInt_wraps hover (by omega),
      ssizeOfInt_eq (z := -off) (by omega) (by omega), if_neg (by omega)]

theorem RamFile.afterSeek_of_ok {moved : RamFile} (h : file.seek off = .ok moved) :
    file.afterSeek off = moved := by
  rw [RamFile.afterSeek, h]

theorem RamFile.afterSeek_of_error {e : Errno} (h : file.seek off = .error e) :
    file.afterSeek off = file := by
  rw [RamFile.afterSeek, h]

/-- What a seek from a position inside the file does: it is refused, it moves the position inside the file,
or the position has wrapped. -/
theorem RamFile.seek_cases (h : file.Inside size) (hlow : -2 ^ 63 ≤ off) (hhigh : off < 2 ^ 63) :
    (SeekKept file.pos off ∧
      ((file.pos + off < 0 ∨ size.toNat < file.pos + off) ∧ file.seek off = .error .espipe ∨
        (0 ≤ file.pos + off ∧ file.pos + off ≤ size.toNat) ∧
          file.seek off = .ok { file with pos := file.pos + off })) ∨
      ¬ SeekKept file.pos off ∧ ∃ pos < 0, file.seek off = .ok { file with pos := pos } := by
  by_cases hkept : SeekKept file.pos off
  · have hseek := file.seek_kept h hkept
    refine .inl ⟨hkept, ?_⟩
    by_cases hout : file.pos + off < 0 ∨ size.toNat < file.pos + off
    · rw [if_pos hout] at hseek
      exact .inl ⟨hout, hseek⟩
    · rw [if_neg hout] at hseek
      exact .inr ⟨by omega, hseek⟩
  · exact .inr ⟨hkept, file.seek_wraps h hlow hhigh hkept⟩

end Seeks

/-! ## Reads -/

section Reads

variable {mem dst : Memory} {file : RamFile} {size : UInt32} {off : Int} {count : Nat}

/-- A read is refused behind the position that the seek has left. -/
def ReadRefused (size : UInt32) (pos : Int) (count : Nat) : Prop :=
  intOfU32 size.toNat < ssizeOfInt (ssizeOfInt count + pos)

theorem intOfU32_small (hsize : size.toNat < 2 ^ 31) : intOfU32 size.toNat = size.toNat := by
  unfold intOfU32
  rw [Int.bmod_def]
  push_cast
  split
  · omega
  · omega

theorem intOfU32_large (hsize : 2 ^ 31 ≤ size.toNat) : intOfU32 size.toNat = size.toNat - 2 ^ 32 := by
  have hlt := size.toNat_lt
  unfold intOfU32
  rw [Int.bmod_def]
  push_cast
  split
  · omega
  · omega

/-- The end of a read, as it is compared. -/
theorem ssizeOfInt_end {pos : Int} (hpos : 0 ≤ pos ∧ pos < 2 ^ 32) (hcount : count < 2 ^ 64) :
    ssizeOfInt (ssizeOfInt count + pos) =
      if pos + count < 2 ^ 63 then pos + count else pos + count - 2 ^ 64 := by
  by_cases hsmall : count < 2 ^ 63
  · rw [ssizeOfInt_eq (z := count) (by omega) (by omega)]
    split
    · rw [ssizeOfInt_eq (by omega) (by omega)]
      omega
    · rw [ssizeOfInt_wraps (by omega) (by omega)]
      omega
  · rw [ssizeOfInt_wraps (z := count) (by omega) (by omega), if_neg (by omega),
      ssizeOfInt_eq (by omega) (by omega)]
    omega

/-- When a read behind a position inside the file is refused. -/
theorem readRefused_iff {pos : Int} (hpos : 0 ≤ pos ∧ pos ≤ size.toNat) (hcount : count < 2 ^ 64) :
    ReadRefused size pos count ↔
      if size.toNat < 2 ^ 31 then size.toNat < pos + count ∧ pos + count < 2 ^ 63
      else pos + count < 2 ^ 63 ∨ 2 ^ 64 - 2 ^ 32 + size.toNat < pos + count := by
  have hlt := size.toNat_lt
  rw [ReadRefused, ssizeOfInt_end (by omega) hcount]
  by_cases hsize : size.toNat < 2 ^ 31
  · rw [if_pos hsize, intOfU32_small hsize]
    split
    · omega
    · omega
  · rw [if_neg hsize, intOfU32_large (by omega)]
    split
    · omega
    · omega

/-- A read of bytes that are in the file of an `int` size is not refused, and a read that is not refused
goes beyond the file otherwise. -/
theorem not_readRefused_iff {pos : Int} (hpos : 0 ≤ pos ∧ pos ≤ size.toNat) (hcount : count < 2 ^ 64) :
    ¬ ReadRefused size pos count ∧ pos + count ≤ size.toNat ↔
      size.toNat < 2 ^ 31 ∧ pos + count ≤ size.toNat := by
  have hlt := size.toNat_lt
  rw [readRefused_iff hpos hcount]
  by_cases hsize : size.toNat < 2 ^ 31
  · rw [if_pos hsize]
    omega
  · rw [if_neg hsize]
    omega

/-- A read whose seek is refused. -/
theorem initramfsFileRead_seek_error {e : Errno} (h : file.seek off = .error e) (mem dst : Memory) :
    initramfsFileRead mem (some file) off count (some dst) = .error e := by
  rw [initramfsFileRead, h]
  rfl

/-- A read behind the position that the seek has left. -/
theorem initramfsFileRead_seek_ok {pos : Int} (hsize : file.size = intOfU32 size.toNat)
    (h : file.seek off = .ok { file with pos := pos }) (mem dst : Memory) (count : Nat) :
    (ReadRefused size pos count ∧
        initramfsFileRead mem (some file) off count (some dst) = .error .e2big) ∨
      ¬ ReadRefused size pos count ∧ initramfsFileRead mem (some file) off count (some dst) =
        .ok (count, { file with pos := pos },
          kmemcpy dst 0 mem (file.pstart + fileHeaderSize + pos.toNat) count) := by
  rw [initramfsFileRead, bind_of_ok h, ReadRefused, ← hsize]
  by_cases hrefused : file.size < ssizeOfInt (ssizeOfInt count + pos)
  · exact .inl ⟨hrefused, if_pos hrefused⟩
  · exact .inr ⟨hrefused, if_neg hrefused⟩

/-- A position that has wrapped is not in the file. -/
theorem RamCall.not_right {call : RamCall} (h : (call.after file).pos < 0) :
    ¬ call.Right mem size file := by
  rintro ⟨⟨hlow, -⟩, -⟩
  omega

/-- When a seek is right. -/
theorem RamCall.seek_right_iff (h : file.Inside size) (off : Int64) :
    (RamCall.seek off).Right mem size file ↔ SeekKept file.pos off.toInt := by
  rcases file.seek_cases h off.le_toInt off.toInt_lt with
    ⟨hkept, ⟨-, hseek⟩ | ⟨hin, hseek⟩⟩ | ⟨hwraps, pos, hneg, hseek⟩
  · refine iff_of_true ?_ hkept
    have hafter : (RamCall.seek off).after file = file := RamFile.afterSeek_of_error hseek
    rw [RamCall.Right, hafter]
    exact ⟨⟨h.pos_nonneg, h.pos_le⟩, fun _ _ => rfl⟩
  · refine iff_of_true ?_ hkept
    have hafter : (RamCall.seek off).after file = _ := RamFile.afterSeek_of_ok hseek
    rw [RamCall.Right, hafter]
    refine ⟨hin, fun e he => ?_⟩
    cases hseek.symm.trans he
  · refine iff_of_false (RamCall.not_right ?_) hwraps
    have hafter : (RamCall.seek off).after file = _ := RamFile.afterSeek_of_ok hseek
    rw [hafter]
    exact hneg

/-- When a read is right. -/
theorem RamCall.read_right_iff (h : file.Inside size) (off : Int64) (count : UInt64) (dst : Memory) :
    (RamCall.read off count (some dst)).Right mem size file ↔
      ReadKept size.toNat count.toNat file.pos off.toInt := by
  have hcount := count.toNat_lt
  rcases file.seek_cases h off.le_toInt off.toInt_lt with
    ⟨hkept, ⟨hout, hseek⟩ | ⟨hin, hseek⟩⟩ | ⟨hwraps, pos, hneg, hseek⟩
  · refine iff_of_true ?_ ⟨hkept, .inl hout⟩
    have hafter : (RamCall.read off count (some dst)).after file = file :=
      RamFile.afterSeek_of_error hseek
    rw [RamCall.Right, hafter]
    simp only [initramfsFileRead_seek_error hseek]
    exact ⟨⟨h.pos_nonneg, h.pos_le⟩, trivial⟩
  · have hafter : (RamCall.read off count (some dst)).after file = _ := RamFile.afterSeek_of_ok hseek
    have hend := not_readRefused_iff hin hcount
    have hrefused := readRefused_iff hin hcount
    rw [RamCall.Right, hafter]
    rcases initramfsFileRead_seek_ok h.size_eq hseek mem dst count.toNat with
      ⟨hno, hread⟩ | ⟨hyes, hread⟩
    · -- The position has been moved, and the read is refused.
      simp only [hread]
      constructor
      · rintro ⟨-, hsame⟩
        have hzero : off.toInt = 0 := by omega
        refine ⟨hkept, .inr (.inr ⟨hzero, ?_⟩)⟩
        have hbounds := hrefused.mp hno
        rwa [hzero, Int.add_zero] at hbounds
      · rintro ⟨-, hout | hsmall | ⟨hzero, -⟩⟩
        · omega
        · exact absurd hno (hend.mpr hsmall).1
        · exact ⟨hin, by omega⟩
    · simp only [hread]
      constructor
      · rintro ⟨-, -, -, hle, -⟩
        exact ⟨hkept, .inr (.inl (hend.mp ⟨hyes, hle⟩))⟩
      · rintro ⟨-, hout | hsmall | ⟨hzero, hbounds⟩⟩
        · omega
        · refine ⟨hin, trivial, trivial, hsmall.2, dst, rfl, ?_, fun x hx => ?_⟩
          · rw [bytes_kmemcpy, RamFile.bytesAt]
          · rw [kmemcpy_apply, if_neg (by omega)]
        · refine absurd (hrefused.mpr ?_) hyes
          rwa [hzero, Int.add_zero]
  · refine iff_of_false (RamCall.not_right ?_) fun hkept => hwraps hkept.1
    have hafter : (RamCall.read off count (some dst)).after file = _ := RamFile.afterSeek_of_ok hseek
    rw [hafter]
    exact hneg

/-- When a call on a file whose position is inside is right. -/
theorem RamCall.right_iff (mem : Memory) (h : file.Inside size) (call : RamCall) :
    call.Right mem size file ↔ call.Kept size file.pos := by
  cases call with
  | seek off => exact RamCall.seek_right_iff h off
  | read off count buf =>
      cases buf with
      | some dst => exact RamCall.read_right_iff h off count dst
      | none => exact iff_of_true ⟨⟨h.pos_nonneg, h.pos_le⟩, rfl⟩ trivial

/-- The size and the start of a file stay. -/
theorem RamCall.after_size (call : RamCall) : (call.after file).size = file.size := by
  have hseek : ∀ off, (file.afterSeek off).size = file.size := by
    intro off
    rw [RamFile.afterSeek]
    cases hcall : file.seek off with
    | error e => rfl
    | ok moved =>
        rw [RamFile.seek] at hcall
        split_ifs at hcall
        obtain rfl := Except.ok.inj hcall
        rfl
  cases call with
  | seek off => exact hseek _
  | read off count buf =>
      cases buf with
      | none => rfl
      | some dst => exact hseek _

/-- A call that is right leaves the position inside the file. -/
theorem RamFile.Inside.after (h : file.Inside size) {call : RamCall}
    (hright : call.Right mem size file) : (call.after file).Inside size where
  size_eq := call.after_size.trans h.size_eq
  pos_nonneg := hright.1.1
  pos_le := hright.1.2

end Reads

/-- From a position inside the file, all calls of a run are right just when each meets its condition. -/
theorem runRight_iff (mem : Memory) {size : UInt32} {file : RamFile} (h : file.Inside size)
    (calls : List RamCall) : RunRight mem size file calls ↔ RunKept size file calls := by
  induction calls generalizing file with
  | nil => exact Iff.rfl
  | cons call calls ih =>
      rw [RunRight, RunKept, ← RamCall.right_iff mem h call]
      exact and_congr_right fun hright => ih (h.after hright)

/-- In every run on a file that was opened, all calls are right just when each meets its condition. -/
theorem ram_reads_inside_iff (mem : Memory) (pstart : Nat) (size : UInt32) (calls : List RamCall) :
    RunRight mem size (openedRamFile pstart size) calls ↔
      RunKept size (openedRamFile pstart size) calls := by
  have hinside : (openedRamFile pstart size).Inside size := by
    constructor
    · simp only [openedRamFile]
    · exact Int.le_refl 0
    · show (0 : Int) ≤ size.toNat
      omega
  exact runRight_iff mem hinside calls

/-- A read at offset 1 of two bytes of a file of two bytes: it is refused, and the position has moved. -/
theorem refused_read_moves :
    initramfsFileRead (fun _ => 0) (some ⟨0, 2, 0⟩) 1 2 (some fun _ => 0) = .error .e2big ∧
      (RamFile.afterSeek ⟨0, 2, 0⟩ 1).pos = 1 ∧
      ¬ RunRight (fun _ => 0) 2 (openedRamFile 0 2) [.read 1 2 (some fun _ => 0)] := by
  have hseek : RamFile.seek ⟨0, 2, 0⟩ 1 = .ok ⟨1, 2, 0⟩ := by rfl
  have hread : ∀ mem dst, initramfsFileRead mem (some ⟨0, 2, 0⟩) 1 2 (some dst) = .error .e2big := by
    intro mem dst
    rw [initramfsFileRead, bind_of_ok hseek]
    exact if_pos (by decide)
  have hafter : (RamFile.afterSeek ⟨0, 2, 0⟩ 1).pos = 1 := by
    rw [RamFile.afterSeek_of_ok hseek]
  refine ⟨hread _ _, hafter, ?_⟩
  rintro ⟨⟨-, hright⟩, -⟩
  have hsize : intOfU32 (2 : UInt32).toNat = 2 := intOfU32_small (by decide)
  have hoff : (1 : Int64).toInt = 1 := by decide
  have hcount : (2 : UInt64).toNat = 2 := by decide
  simp only [openedRamFile, hsize, hoff, hcount, RamCall.after] at hright
  have hsame : (RamFile.afterSeek ⟨0, 2, 0⟩ 1).pos = 0 := hright
  rw [hafter] at hsame
  cases hsame

end Fs
end Micael
