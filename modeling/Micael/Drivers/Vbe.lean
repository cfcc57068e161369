import Micael.Foundation.Run
import Micael.Kernel.Util

/-!
# Text on the screen

The console of the frame buffer writes characters of 8 by 16 pixels at a cursor and moves it.  A screen has 48
rows of 128 characters.  With a linear frame buffer all rows are in sight; without it a window shows one of 13
banks, each with four rows.

The rows are shifted up after the cursor has moved, but only a newline takes the cursor back to the last row.  An
erasure moves the cursor to the left without looking where it is.

Main results:

- Theorem {lit}`putChar_moved`: where a character takes the cursor.
- Theorem {lit}`vbeStep_keeps`: what a character keeps unless it leaves the screen.
- Theorem {lit}`console_on_screen_iff`: when a text stays on the screen, for all texts.
-/

namespace Micael
namespace Drivers

open Foundation Kernel

/-! ## The state -/

/-- `DISPLAY_WIDTH`. -/
def displayWidth : UInt32 := 1024

/-- `DISPLAY_HEIGHT`. -/
def displayHeight : UInt32 := 768

/-- `DISPLAY_BITDEPTH`. -/
def displayBitdepth : UInt32 := 8

/-- `DISPLAY_FG_COLOR`, the color `CURSOR_BG_COLOR` too. -/
def displayFgColor : UInt8 := 0x22

/-- `DISPLAY_BG_COLOR`, the color `CURSOR_FG_COLOR` too. -/
def displayBgColor : UInt8 := 0xff

/-- `ROWS_PER_BANK`. -/
def rowsPerBank : UInt32 := 64

/-- `LAST_BANK`. -/
def lastBank : UInt32 := 12

/-- `LINE_SIZE`. -/
def lineSize : Nat := 16384

/-- The variables of `vbe.c`, the memory that `vga_mem` shows with every bank, and the indices that
`vbe_putpixel` has used. -/
structure VbeState where
  lfb : Bool
  /-- `vga_mem != NULL`. -/
  vgaMem : Bool
  banks : UInt32 → Memory
  fontMap : Memory
  curX : UInt32
  curY : UInt32
  curBank : UInt32
  lineBuffer0 : Memory
  lineBuffer1 : Memory
  pixels : List UInt32

/-- The bank that `vga_mem` shows. -/
def VbeState.bank (s : VbeState) : UInt32 := if s.lfb then 0 else s.curBank

/-- The memory at `vga_mem`. -/
def VbeState.mem (s : VbeState) : Memory := s.banks s.bank

/-- Write the memory at `vga_mem`. -/
def VbeState.setMem (s : VbeState) (mem : Memory) : VbeState :=
  { s with banks := Function.update s.banks s.bank mem }

/-! ## Drawing -/

/-- `vbe_set_bank`. -/
def vbeSetBank (s : VbeState) (num : UInt16) : VbeState := { s with curBank := num.toUInt32 }

/-- Clear the first bytes of the memory at `vga_mem`. -/
def clearMem (s : VbeState) (size : Nat) : VbeState := s.setMem (s.mem.fill 0 size 0xff)

/-- `vbe_clear_screen`. -/
def vbeClearScreen (s : VbeState) : VbeState :=
  let s :=
    if s.lfb = false then clearMem s (4096 * 4096)
    else
      vbeSetBank
        ((List.range lastBank.toNat).foldl
          (fun s bank => clearMem (vbeSetBank s (UInt16.ofNat bank)) (4096 * 16)) s) 0
  { s with curX := 0, curY := 0 }

/-- `vbe_putpixel`. -/
def vbePutpixel (s : VbeState) (color : UInt8) (y x : UInt32) : VbeState :=
  let i := y * displayWidth + x - 1
  { s.setMem (putByte s.mem i.toNat color) with pixels := s.pixels ++ [i] }

/-- The pixels of a character in the order in which they are written: rows, then columns. -/
def glyphCells : List (Nat × Nat) := (List.range 16).flatMap fun cy => (List.range 8).map fun cx => (cy, cx)

/-- One turn of the inner loop of `vbe_putchar`. -/
def putcharTurn (c : UInt8) (y x : UInt32) (fgcolor bgcolor : UInt8) (s : VbeState) (cell : Nat × Nat) :
    VbeState :=
  let mask := (1 : UInt8) <<< UInt8.ofNat cell.2
  let color := if s.fontMap (c.toNat * 16 + cell.1) &&& mask ≠ 0 then fgcolor else bgcolor
  vbePutpixel s color (y + UInt32.ofNat cell.1) (x + 8 - UInt32.ofNat cell.2)

/-- `vbe_putchar`. -/
def vbePutchar (s : VbeState) (c : UInt8) (y x : UInt32) (fgcolor bgcolor : UInt8) : VbeState :=
  glyphCells.foldl (putcharTurn c y x fgcolor bgcolor) s

/-- `vbe_putchar` at the cursor with the colors of the display. -/
def putDisplay (s : VbeState) (c : UInt8) : VbeState :=
  vbePutchar s c s.curY s.curX displayFgColor displayBgColor

/-- `cur_x += DISPLAY_BITDEPTH`. -/
def advance (s : VbeState) : VbeState := { s with curX := s.curX + displayBitdepth }

/-- The case `'\n'` of `__put_char`. -/
def putNewline (s : VbeState) : VbeState :=
  let s := putDisplay s ' '.toUInt8
  let s := { s with curY := s.curY + displayBitdepth * 2 }
  let s := if s.curBank = lastBank then { s with curY := s.curY + displayBitdepth * 2 * 3 } else s
  { s with curX := 0 }

/-- The case `'\b'` of `__put_char`. -/
def putBackspace (s : VbeState) : VbeState :=
  let s := putDisplay s ' '.toUInt8
  let s := vbePutchar s 0 s.curY (s.curX - displayBitdepth) displayFgColor displayBgColor
  { s with curX := s.curX - displayBitdepth }

/-- One turn of the loop in the case `'\t'` of `__put_char`. -/
def putBlank (s : VbeState) : VbeState := advance (putDisplay s ' '.toUInt8)

/-- The switch of `__put_char`. -/
def putSwitch (s : VbeState) (c : UInt8) : VbeState :=
  if c = '\n'.toUInt8 then putNewline s
  else if c = 8 then putBackspace s
  else if c = '\t'.toUInt8 then putBlank (putBlank (putBlank (putBlank s)))
  else advance (putDisplay s c)

/-! ## Lines -/

/-- The end of a line. -/
def endOfLine (s : VbeState) : VbeState :=
  if displayWidth ≤ s.curX then { s with curX := 0, curY := s.curY + displayBitdepth * 2 } else s

/-- Copy a row of the screen over another one. -/
def copyLine (s : VbeState) (i j : Nat) : VbeState :=
  s.setMem (kmemcpy s.mem (i * lineSize) s.mem (j * lineSize) lineSize)

/-- The end of the screen, with a linear frame buffer: all rows are shifted up by one. -/
def endOfScreen (s : VbeState) (c : UInt8) : VbeState :=
  if 47 < s.curY / (displayBitdepth * 2) then
    let s := (List.range 48).foldl (fun s i => copyLine s i (i + 1)) s
    if c = '\n'.toUInt8 then { s with curY := displayBitdepth * 2 * 47 } else s
  else s

/-- One turn of the loop over the banks. -/
def shiftBank (s : VbeState) : VbeState :=
  let s := { s with lineBuffer0 := kmemcpy s.lineBuffer0 0 s.mem 0 lineSize }
  let s := (List.range 3).foldl
    (fun s i => copyLine (s.setMem (s.mem.fill (i * lineSize) lineSize 0)) i (i + 1)) s
  let s :=
    if s.curBank ≠ lastBank then s.setMem (kmemcpy s.mem (3 * lineSize) s.lineBuffer1 0 lineSize) else s
  let s := { s with lineBuffer1 := kmemcpy s.lineBuffer1 0 s.lineBuffer0 0 lineSize }
  vbeSetBank s (s.curBank - 1).toUInt16

/-- The end of a bank, without a linear frame buffer. -/
def endOfBank (s : VbeState) : VbeState :=
  if rowsPerBank ≤ s.curY then
    if s.curBank < lastBank then vbeSetBank { s with curX := 0, curY := 0 } (s.curBank + 1).toUInt16
    else
      let s := (List.range (s.curBank.toNat + 1)).foldl (fun s _ => shiftBank s) s
      vbeSetBank { s with curX := 0, curY := 0 } lastBank.toUInt16
  else s

/-- The line that a newline begins is cleared. -/
def clearLine (s : VbeState) (c : UInt8) : VbeState :=
  if c = '\n'.toUInt8 then s.setMem (s.mem.fill (s.curY * displayWidth).toNat lineSize 0) else s

/-- `__put_char`. -/
def putChar (s : VbeState) (c : UInt8) (cursor : Bool) : VbeState :=
  if s.vgaMem = false then s
  else if cursor then vbePutchar s c s.curY s.curX displayBgColor displayFgColor
  else
    let s := endOfLine (putSwitch s c)
    clearLine (if s.lfb then endOfScreen s c else endOfBank s) c

/-- `vbe_put_char`. -/
def vbePutChar (s : VbeState) (c : UInt8) : VbeState :=
  let s := putChar s c false
  if c ≠ '\n'.toUInt8 then putChar s ' '.toUInt8 true else s

/-- `vbe_put_str`.  The last character of an empty string is what stands before it. -/
def vbePutStr (s : VbeState) (before : UInt8) (str : List UInt8) : VbeState :=
  let s := str.foldl (fun s c => putChar s c false) s
  if str.getLastD before ≠ '\n'.toUInt8 then putChar s ' '.toUInt8 true else s

/-! ## Texts -/

/-- A call of the console. -/
inductive VbeCall where
  | putChar (c : UInt8)
  | putStr (before : UInt8) (str : List UInt8)

/-- A call as the kernel makes it. -/
def VbeCall.run (s : VbeState) : VbeCall → VbeState
  | putChar c => vbePutChar s c
  | putStr before str => vbePutStr s before str

/-- A call of `__put_char`: a character of the text, or the cursor. -/
inductive VbeOp where
  | char (c : UInt8)
  | cursor

/-- What a call of `__put_char` does. -/
def VbeOp.run (s : VbeState) : VbeOp → VbeState
  | char c => Drivers.putChar s c false
  | cursor => Drivers.putChar s ' '.toUInt8 true

/-- The characters that a call prints, and the cursor behind them. -/
def VbeCall.ops : VbeCall → List VbeOp
  | putChar c => .char c :: if c ≠ '\n'.toUInt8 then [.cursor] else []
  | putStr before str => str.map .char ++ if str.getLastD before ≠ '\n'.toUInt8 then [.cursor] else []

/-- One call of `__put_char`. -/
def VbeStep (s : VbeState) (op : VbeOp) (s' : VbeState) : Prop := s' = op.run s

/-- The cursor is on a character of the screen, and so was every pixel that was written. -/
structure VbeState.OnScreen (s : VbeState) : Prop where
  curX_lt : s.curX.toNat < 1024
  curX_mod : s.curX.toNat % 8 = 0
  curY_le : s.curY.toNat ≤ 47 * 16
  curY_mod : s.curY.toNat % 16 = 0
  pixels_lt : ∀ i ∈ s.pixels, i.toNat < 1024 * 768

/-- A character takes the cursor into the next row. -/
def Wraps (x : Nat) (c : UInt8) : Prop :=
  if c = 8 then x = 0 else if c = '\t'.toUInt8 then 1024 ≤ x + 32 else 1024 ≤ x + 8

/-- A character stays on the screen: nothing is erased in the corner, and no character but a newline goes on
behind the last row. -/
def VbeOp.Stays (s : VbeState) : VbeOp → Prop
  | char c =>
      ¬ (c = 8 ∧ s.curX.toNat = 0 ∧ s.curY.toNat = 0) ∧
        ¬ (c ≠ '\n'.toUInt8 ∧ s.curY.toNat = 47 * 16 ∧ Wraps s.curX.toNat c)
  | cursor => True

/-! ## Pixels -/

section Pixels

variable {x y i : UInt32}

/-- The index of a pixel of a character. -/
def pixelIndex (y x : UInt32) (cell : Nat × Nat) : UInt32 :=
  (y + UInt32.ofNat cell.1) * displayWidth + (x + 8 - UInt32.ofNat cell.2) - 1

/-- The indices of the pixels of a character. -/
def glyphPixels (y x : UInt32) : List UInt32 := glyphCells.map (pixelIndex y x)

theorem mem_glyphCells {cell : Nat × Nat} : cell ∈ glyphCells ↔ cell.1 < 16 ∧ cell.2 < 8 := by
  obtain ⟨cy, cx⟩ := cell
  simp [glyphCells]

theorem mem_glyphPixels :
    i ∈ glyphPixels y x ↔ ∃ cell : Nat × Nat, cell.1 < 16 ∧ cell.2 < 8 ∧ pixelIndex y x cell = i := by
  simp only [glyphPixels, List.mem_map, mem_glyphCells, and_assoc]

theorem ofNat_toNat_of_lt {n : Nat} (h : n < 16) : (UInt32.ofNat n).toNat = n := by
  rw [UInt32.toNat_ofNat', Nat.mod_eq_of_lt (h.trans (by norm_num))]

theorem pixelIndex_toNat {cell : Nat × Nat} (hrow : cell.1 < 16) (hcol : cell.2 < 8) (hy : y.toNat ≤ 47 * 16)
    (hx : x.toNat ≤ 1040) : (pixelIndex y x cell).toNat = (y.toNat + cell.1) * 1024 + x.toNat + 7 - cell.2 := by
  have hcy : (UInt32.ofNat cell.1).toNat = cell.1 := ofNat_toNat_of_lt (by omega)
  have hcx : (UInt32.ofNat cell.2).toNat = cell.2 := ofNat_toNat_of_lt (by omega)
  have hwidth : displayWidth.toNat = 1024 := rfl
  have height : (8 : UInt32).toNat = 8 := rfl
  have hone : (1 : UInt32).toNat = 1 := rfl
  rw [pixelIndex, UInt32.toNat_sub, UInt32.toNat_add, UInt32.toNat_mul, UInt32.toNat_add, UInt32.toNat_sub,
    UInt32.toNat_add, hcy, hcx, hwidth, height, hone]
  omega

/-- A character at the cursor, or in the next columns of a row that is not the last one. -/
theorem glyphPixels_lt (hy : y.toNat ≤ 47 * 16) (hx : x.toNat ≤ 1040)
    (hcorner : y.toNat ≤ 46 * 16 ∨ x.toNat ≤ 1016) : ∀ i ∈ glyphPixels y x, i.toNat < 1024 * 768 := by
  intro i hi
  obtain ⟨cell, hrow, hcol, rfl⟩ := mem_glyphPixels.mp hi
  rw [pixelIndex_toNat hrow hcol hy hx]
  omega

theorem pixelIndex_erased {cell : Nat × Nat} (hrow : cell.1 < 16) (hcol : cell.2 < 8) (hx : x.toNat = 0) :
    (pixelIndex y (x - displayBitdepth) cell).toNat =
      ((y.toNat + cell.1) * 1024 + 2 ^ 32 - cell.2 - 1) % 2 ^ 32 := by
  have hcy : (UInt32.ofNat cell.1).toNat = cell.1 := ofNat_toNat_of_lt (by omega)
  have hcx : (UInt32.ofNat cell.2).toNat = cell.2 := ofNat_toNat_of_lt (by omega)
  have hwidth : displayWidth.toNat = 1024 := rfl
  have hdepth : displayBitdepth.toNat = 8 := rfl
  have height : (8 : UInt32).toNat = 8 := rfl
  have hone : (1 : UInt32).toNat = 1 := rfl
  rw [pixelIndex, UInt32.toNat_sub, UInt32.toNat_add, UInt32.toNat_mul, UInt32.toNat_add, UInt32.toNat_sub,
    UInt32.toNat_add, UInt32.toNat_sub, hcy, hcx, hwidth, hdepth, height, hone, hx]
  omega

/-- A character left of the first column is drawn over the end of the row above. -/
theorem glyphPixels_erased_lt (hy : y.toNat ≤ 47 * 16) (hpos : 16 ≤ y.toNat) (hx : x.toNat = 0) :
    ∀ i ∈ glyphPixels y (x - displayBitdepth), i.toNat < 1024 * 768 := by
  intro i hi
  obtain ⟨cell, hrow, hcol, rfl⟩ := mem_glyphPixels.mp hi
  rw [pixelIndex_erased hrow hcol hx]
  omega

/-- Above the first row there is nothing. -/
theorem glyphPixels_corner (hy : y.toNat = 0) (hx : x.toNat = 0) :
    ∃ i ∈ glyphPixels y (x - displayBitdepth), ¬ i.toNat < 1024 * 768 := by
  have hindex := @pixelIndex_erased x y (0, 0) (by norm_num) (by norm_num) hx
  refine ⟨pixelIndex y (x - displayBitdepth) (0, 0), mem_glyphPixels.mpr ⟨(0, 0), by norm_num, by norm_num, rfl⟩, ?_⟩
  rw [hindex, hy]
  norm_num

end Pixels

/-! ## Moves of the cursor -/

section Moves

variable {s t u : VbeState} {x y : UInt32} {c fgcolor bgcolor : UInt8} {ps qs : List UInt32}

/-- The cursor was moved, and pixels were written. -/
structure Moved (s t : VbeState) (x y : UInt32) (ps : List UInt32) : Prop where
  lfb : t.lfb = s.lfb
  vgaMem : t.vgaMem = s.vgaMem
  curBank : t.curBank = s.curBank
  curX : t.curX = x
  curY : t.curY = y
  pixels : t.pixels = s.pixels ++ ps

theorem Moved.refl (s : VbeState) : Moved s s s.curX s.curY [] :=
  ⟨rfl, rfl, rfl, rfl, rfl, (List.append_nil _).symm⟩

theorem Moved.trans {x' y' : UInt32} (h : Moved s t x y ps) (h' : Moved t u x' y' qs) :
    Moved s u x' y' (ps ++ qs) where
  lfb := h'.lfb.trans h.lfb
  vgaMem := h'.vgaMem.trans h.vgaMem
  curBank := h'.curBank.trans h.curBank
  curX := h'.curX
  curY := h'.curY
  pixels := by rw [h'.pixels, h.pixels, List.append_assoc]

/-- A character that is drawn. -/
theorem vbePutchar_moved (s : VbeState) (c : UInt8) (y x : UInt32) (fgcolor bgcolor : UInt8) :
    Moved s (vbePutchar s c y x fgcolor bgcolor) s.curX s.curY (glyphPixels y x) := by
  rw [vbePutchar, glyphPixels]
  generalize glyphCells = cells
  induction cells generalizing s with
  | nil => exact Moved.refl s
  | cons cell cells ih =>
      have hturn : Moved s (putcharTurn c y x fgcolor bgcolor s cell) s.curX s.curY [pixelIndex y x cell] :=
        ⟨rfl, rfl, rfl, rfl, rfl, rfl⟩
      exact hturn.trans (ih _)

/-- A character that takes one column. -/
theorem putDefault_moved (s : VbeState) (c : UInt8) :
    Moved s (advance (putDisplay s c)) (s.curX + displayBitdepth) s.curY (glyphPixels s.curY s.curX) := by
  have hdrawn := vbePutchar_moved s c s.curY s.curX displayFgColor displayBgColor
  rw [putDisplay, advance]
  generalize vbePutchar s c s.curY s.curX displayFgColor displayBgColor = t at hdrawn
  constructor
  case lfb => exact hdrawn.lfb
  case vgaMem => exact hdrawn.vgaMem
  case curBank => exact hdrawn.curBank
  case curX => exact congrArg (· + displayBitdepth) hdrawn.curX
  case curY => exact hdrawn.curY
  case pixels => exact hdrawn.pixels

theorem putNewline_moved (hbank : s.curBank ≠ lastBank) :
    Moved s (putNewline s) 0 (s.curY + displayBitdepth * 2) (glyphPixels s.curY s.curX) := by
  have hdrawn := vbePutchar_moved s ' '.toUInt8 s.curY s.curX displayFgColor displayBgColor
  rw [putNewline, putDisplay]
  generalize vbePutchar s ' '.toUInt8 s.curY s.curX displayFgColor displayBgColor = t at hdrawn
  have hlast : ¬ t.curBank = lastBank := hdrawn.curBank ▸ hbank
  simp only [if_neg hlast]
  constructor
  case lfb => exact hdrawn.lfb
  case vgaMem => exact hdrawn.vgaMem
  case curBank => exact hdrawn.curBank
  case curX => rfl
  case curY => exact congrArg (· + displayBitdepth * 2) hdrawn.curY
  case pixels => exact hdrawn.pixels

theorem putBackspace_moved (s : VbeState) :
    Moved s (putBackspace s) (s.curX - displayBitdepth) s.curY
      (glyphPixels s.curY s.curX ++ glyphPixels s.curY (s.curX - displayBitdepth)) := by
  have hdrawn := vbePutchar_moved s ' '.toUInt8 s.curY s.curX displayFgColor displayBgColor
  rw [putBackspace, putDisplay]
  generalize vbePutchar s ' '.toUInt8 s.curY s.curX displayFgColor displayBgColor = t at hdrawn
  have herased := vbePutchar_moved t 0 t.curY (t.curX - displayBitdepth) displayFgColor displayBgColor
  generalize vbePutchar t 0 t.curY (t.curX - displayBitdepth) displayFgColor displayBgColor = u at herased
  have hboth := hdrawn.trans herased
  constructor
  case lfb => exact hboth.lfb
  case vgaMem => exact hboth.vgaMem
  case curBank => exact hboth.curBank
  case curX => exact congrArg (· - displayBitdepth) (hboth.curX.trans hdrawn.curX)
  case curY => exact hboth.curY.trans hdrawn.curY
  case pixels =>
      have hpixels := hboth.pixels
      rwa [hdrawn.curX, hdrawn.curY] at hpixels

theorem putTab_moved (s : VbeState) :
    Moved s (putBlank (putBlank (putBlank (putBlank s))))
      (s.curX + displayBitdepth + displayBitdepth + displayBitdepth + displayBitdepth) s.curY
      (glyphPixels s.curY s.curX ++ glyphPixels s.curY (s.curX + displayBitdepth) ++
        glyphPixels s.curY (s.curX + displayBitdepth + displayBitdepth) ++
        glyphPixels s.curY (s.curX + displayBitdepth + displayBitdepth + displayBitdepth)) := by
  have hone : ∀ {t : VbeState} {x y : UInt32} {ps : List UInt32}, Moved s t x y ps →
      Moved s (putBlank t) (x + displayBitdepth) y (ps ++ glyphPixels y x) := by
    intro t x y ps h
    have hblank := h.trans (putDefault_moved t ' '.toUInt8)
    rwa [h.curX, h.curY] at hblank
  have hfour := hone (hone (hone (hone (Moved.refl s))))
  rwa [List.nil_append] at hfour

/-- The rows are shifted. -/
theorem copyLines_moved (s : VbeState) (lines : List Nat) :
    Moved s (lines.foldl (fun s i => copyLine s i (i + 1)) s) s.curX s.curY [] := by
  induction lines generalizing s with
  | nil => exact Moved.refl s
  | cons i lines ih =>
      have hturn : Moved s (copyLine s i (i + 1)) s.curX s.curY [] :=
        ⟨rfl, rfl, rfl, rfl, rfl, (List.append_nil _).symm⟩
      exact hturn.trans (ih _)

/-- The cursor behind a line is taken to the next one. -/
theorem endOfLine_moved (s : VbeState) :
    Moved s (endOfLine s) (if displayWidth ≤ s.curX then 0 else s.curX)
      (if displayWidth ≤ s.curX then s.curY + displayBitdepth * 2 else s.curY) [] := by
  rw [endOfLine]
  split
  · exact ⟨rfl, rfl, rfl, rfl, rfl, (List.append_nil _).symm⟩
  · exact Moved.refl s

/-- Only a newline takes the cursor back to the last row. -/
theorem endOfScreen_moved (s : VbeState) (c : UInt8) :
    Moved s (endOfScreen s c) s.curX
      (if 47 < s.curY / (displayBitdepth * 2) ∧ c = '\n'.toUInt8 then displayBitdepth * 2 * 47 else s.curY) [] := by
  rw [endOfScreen]
  by_cases hlast : 47 < s.curY / (displayBitdepth * 2)
  · have hshift := copyLines_moved s (List.range 48)
    rw [if_pos hlast]
    generalize (List.range 48).foldl (fun s i => copyLine s i (i + 1)) s = t at hshift
    by_cases hc : c = '\n'.toUInt8
    · simp only [if_pos hc, if_pos (And.intro hlast hc)]
      exact ⟨hshift.lfb, hshift.vgaMem, hshift.curBank, hshift.curX, rfl, hshift.pixels⟩
    · simp only [if_neg hc, if_neg fun h : _ ∧ c = '\n'.toUInt8 => hc h.2]
      exact hshift
  · rw [if_neg hlast, if_neg fun h => hlast h.1]
    exact Moved.refl s

theorem clearLine_moved (s : VbeState) (c : UInt8) : Moved s (clearLine s c) s.curX s.curY [] := by
  rw [clearLine]
  split
  · exact ⟨rfl, rfl, rfl, rfl, rfl, (List.append_nil _).symm⟩
  · exact Moved.refl s

/-- The row behind the columns of a line. -/
def nextRow (x y : UInt32) : UInt32 := if displayWidth ≤ x then y + displayBitdepth * 2 else y

/-- Where a character takes the cursor, when the switch has taken it to a place. -/
theorem putChar_moved (hlfb : s.lfb = true) (hmem : s.vgaMem = true) (h : Moved s (putSwitch s c) x y ps) :
    Moved s (putChar s c false) (if displayWidth ≤ x then 0 else x)
      (if 47 < nextRow x y / (displayBitdepth * 2) ∧ c = '\n'.toUInt8 then displayBitdepth * 2 * 47
        else nextRow x y) ps := by
  have hmapped : ¬ s.vgaMem = false := by
    rw [hmem]
    decide
  rw [putChar, if_neg hmapped]
  generalize putSwitch s c = t at h
  have hline := h.trans (endOfLine_moved t)
  rw [h.curX, h.curY, ← nextRow] at hline
  have hscreen := hline.trans (endOfScreen_moved _ c)
  rw [hline.curX, hline.curY] at hscreen
  have hclear := hscreen.trans (clearLine_moved _ c)
  rw [hscreen.curX, hscreen.curY, List.append_nil, List.append_nil, List.append_nil] at hclear
  have hkept : (endOfLine t).lfb = true := hline.lfb.trans hlfb
  simp only [Bool.false_eq_true, if_false, hkept, if_true]
  exact hclear

end Moves

/-! ## Characters -/

section Characters

variable {s : VbeState} {c : UInt8} {x y : UInt32} {ps : List UInt32}

/-- A console with a linear frame buffer whose cursor is on the screen. -/
structure VbeState.Ready (s : VbeState) : Prop where
  onScreen : s.OnScreen
  lfb : s.lfb = true
  vgaMem : s.vgaMem = true
  curBank : s.curBank = 0

theorem nextRow_toNat (hy : y.toNat ≤ 48 * 16) :
    (nextRow x y).toNat = if 1024 ≤ x.toNat then y.toNat + 16 else y.toNat := by
  have hwidth : displayWidth ≤ x ↔ 1024 ≤ x.toNat := UInt32.le_iff_toNat_le
  have hrow : (displayBitdepth * 2).toNat = 16 := rfl
  rw [nextRow]
  simp only [hwidth]
  split
  · rw [UInt32.toNat_add, hrow, Nat.mod_eq_of_lt (by omega)]
  · rfl

/-- The cursor behind a character is on the screen, unless a character other than a newline went on behind the
last row. -/
theorem putChar_onScreen_iff (h : s.Ready) (hmoved : Moved s (putSwitch s c) x y ps) (hx : x.toNat % 8 = 0)
    (hy : y.toNat % 16 = 0) (hle : y.toNat ≤ 48 * 16) :
    (putChar s c false).OnScreen ↔
      (∀ i ∈ ps, i.toNat < 1024 * 768) ∧
        (c = '\n'.toUInt8 ∨ (if 1024 ≤ x.toNat then y.toNat + 16 else y.toNat) ≤ 47 * 16) := by
  have hput := putChar_moved h.lfb h.vgaMem hmoved
  have hrow := @nextRow_toNat x y hle
  have hwidth : displayWidth ≤ x ↔ 1024 ≤ x.toNat := UInt32.le_iff_toNat_le
  have hlast : 47 < nextRow x y / (displayBitdepth * 2) ↔ 47 < (nextRow x y).toNat / 16 := by
    rw [UInt32.lt_iff_toNat_lt, UInt32.toNat_div]
    rfl
  have hcurX : (putChar s c false).curX.toNat = if 1024 ≤ x.toNat then 0 else x.toNat := by
    rw [hput.curX]
    simp only [hwidth]
    split <;> rfl
  have hcurY : (putChar s c false).curY.toNat =
      if 47 < (nextRow x y).toNat / 16 ∧ c = '\n'.toUInt8 then 47 * 16 else (nextRow x y).toNat := by
    rw [hput.curY]
    simp only [hlast]
    split <;> rfl
  have hpixels : (∀ i ∈ (putChar s c false).pixels, i.toNat < 1024 * 768) ↔ ∀ i ∈ ps, i.toNat < 1024 * 768 := by
    rw [hput.pixels, List.forall_mem_append]
    exact and_iff_right h.onScreen.pixels_lt
  constructor
  · intro hscreen
    refine ⟨hpixels.mp hscreen.pixels_lt, ?_⟩
    by_cases hc : c = '\n'.toUInt8
    · exact Or.inl hc
    · have hbelow := hscreen.curY_le
      rw [hcurY, if_neg fun h => hc h.2, hrow] at hbelow
      exact Or.inr hbelow
  · rintro ⟨hps, hbelow⟩
    have hmod : (nextRow x y).toNat % 16 = 0 := by
      rw [hrow]
      split <;> omega
    rw [← hrow] at hbelow
    constructor
    case curX_lt =>
        rw [hcurX]
        split <;> omega
    case curX_mod =>
        rw [hcurX]
        split <;> omega
    case curY_le =>
        rw [hcurY]
        split
        case isTrue => exact Nat.le_refl _
        case isFalse hstays =>
            rcases hbelow with hc | hbelow
            · have habove : ¬ 47 < (nextRow x y).toNat / 16 := fun hlast => hstays ⟨hlast, hc⟩
              omega
            · exact hbelow
    case curY_mod =>
        rw [hcurY]
        split
        case isTrue => rfl
        case isFalse => exact hmod
    case pixels_lt => exact hpixels.mpr hps

theorem stays_newline (s : VbeState) : VbeOp.Stays s (.char '\n'.toUInt8) :=
  ⟨fun h => absurd h.1 (by decide), fun h => h.1 rfl⟩

/-- A newline stays on the screen. -/
theorem VbeState.Ready.newline (h : s.Ready) : (putChar s '\n'.toUInt8 false).OnScreen := by
  have hx := h.onScreen.curX_lt
  have hxmod := h.onScreen.curX_mod
  have hy := h.onScreen.curY_le
  have hymod := h.onScreen.curY_mod
  have hbank : s.curBank ≠ lastBank := by
    rw [h.curBank]
    decide
  have hrow : (s.curY + displayBitdepth * 2).toNat = s.curY.toNat + 16 := by
    have hdepth : (displayBitdepth * 2).toNat = 16 := rfl
    rw [UInt32.toNat_add, hdepth, Nat.mod_eq_of_lt (by omega)]
  have hswitch : putSwitch s '\n'.toUInt8 = putNewline s := if_pos rfl
  refine (putChar_onScreen_iff h (hswitch ▸ putNewline_moved hbank) rfl (by omega)
    (by omega)).mpr ⟨?_, Or.inl rfl⟩
  exact glyphPixels_lt hy (by omega) (by omega)

theorem wraps_backspace {x : Nat} : Wraps x 8 ↔ x = 0 :=
  Iff.rfl

theorem wraps_tab {x : Nat} : Wraps x '\t'.toUInt8 ↔ 1024 ≤ x + 32 :=
  Iff.rfl

theorem wraps_default {x : Nat} (hback : c ≠ 8) (htab : c ≠ '\t'.toUInt8) : Wraps x c ↔ 1024 ≤ x + 8 := by
  rw [Wraps, if_neg hback, if_neg htab]

/-- A character that takes columns, and draws in them, stays on the screen unless it goes on behind the last
row. -/
theorem VbeState.Ready.columns_iff (h : s.Ready) (hmoved : Moved s (putSwitch s c) x s.curY ps)
    (hc : c ≠ '\n'.toUInt8) (hback : c ≠ 8) (hmod : x.toNat % 8 = 0)
    (hwraps : Wraps s.curX.toNat c ↔ 1024 ≤ x.toNat)
    (hpixels : ¬ (s.curY.toNat = 47 * 16 ∧ 1024 ≤ x.toNat) → ∀ i ∈ ps, i.toNat < 1024 * 768) :
    (putChar s c false).OnScreen ↔ VbeOp.Stays s (.char c) := by
  have hy := h.onScreen.curY_le
  have hymod := h.onScreen.curY_mod
  rw [putChar_onScreen_iff h hmoved hmod hymod (by omega), VbeOp.Stays, hwraps]
  constructor
  · rintro ⟨-, hrow⟩
    refine ⟨fun hcorner => hback hcorner.1, fun hlast => ?_⟩
    have hbelow := hrow.resolve_left hc
    rw [if_pos hlast.2.2] at hbelow
    omega
  · rintro ⟨-, hlast⟩
    have hstays : ¬ (s.curY.toNat = 47 * 16 ∧ 1024 ≤ x.toNat) := fun hboth => hlast ⟨hc, hboth⟩
    refine ⟨hpixels hstays, Or.inr ?_⟩
    split <;> omega

/-- A backspace stays on the screen unless it is in the first column of the first or the last row. -/
theorem VbeState.Ready.backspace_iff (h : s.Ready) :
    (putChar s 8 false).OnScreen ↔ VbeOp.Stays s (.char 8) := by
  have hx := h.onScreen.curX_lt
  have hxmod := h.onScreen.curX_mod
  have hy := h.onScreen.curY_le
  have hymod := h.onScreen.curY_mod
  have hdepth : displayBitdepth.toNat = 8 := rfl
  have hnewline : (8 : UInt8) ≠ '\n'.toUInt8 := by decide
  have hswitch : putSwitch s 8 = putBackspace s := by rw [putSwitch, if_neg hnewline, if_pos rfl]
  have hmoved := hswitch ▸ putBackspace_moved s
  have hcursor := @glyphPixels_lt s.curX s.curY hy (by omega) (by omega)
  rw [VbeOp.Stays, wraps_backspace]
  by_cases hzero : s.curX.toNat = 0
  · have hleft : (s.curX - displayBitdepth).toNat = 2 ^ 32 - 8 := by
      rw [UInt32.toNat_sub, hdepth, hzero]
      norm_num
    rw [putChar_onScreen_iff h hmoved (by omega) hymod (by omega), hleft, List.forall_mem_append, if_pos (by norm_num)]
    constructor
    · rintro ⟨⟨-, herased⟩, hrow⟩
      have hbelow := hrow.resolve_left hnewline
      refine ⟨fun hcorner => ?_, fun hlast => by omega⟩
      obtain ⟨i, hi, hout⟩ := glyphPixels_corner hcorner.2.2 hzero
      exact hout (herased i hi)
    · rintro ⟨hcorner, hlast⟩
      have hpos : ¬ s.curY.toNat = 0 := fun htop => hcorner ⟨rfl, hzero, htop⟩
      have habove : ¬ s.curY.toNat = 47 * 16 := fun hrow => hlast ⟨hnewline, hrow, hzero⟩
      exact ⟨⟨hcursor, glyphPixels_erased_lt hy (by omega) hzero⟩, Or.inr (by omega)⟩
  · have hleft : (s.curX - displayBitdepth).toNat = s.curX.toNat - 8 := by
      rw [UInt32.toNat_sub, hdepth]
      omega
    rw [putChar_onScreen_iff h hmoved (by omega) hymod (by omega), hleft, List.forall_mem_append, if_neg (by omega)]
    refine iff_of_true ⟨⟨hcursor, glyphPixels_lt hy (by omega) (by omega)⟩, Or.inr hy⟩ ?_
    exact ⟨fun hcorner => hzero hcorner.2.1, fun hlast => hzero hlast.2.2⟩

/-- A character leaves the cursor and all pixels on the screen just when it stays there. -/
theorem VbeState.Ready.char_iff (h : s.Ready) (c : UInt8) :
    (putChar s c false).OnScreen ↔ VbeOp.Stays s (.char c) := by
  have hx := h.onScreen.curX_lt
  have hxmod := h.onScreen.curX_mod
  have hy := h.onScreen.curY_le
  have hymod := h.onScreen.curY_mod
  have hdepth : displayBitdepth.toNat = 8 := rfl
  have hadd : ∀ x : UInt32, x.toNat ≤ 1048 → (x + displayBitdepth).toNat = x.toNat + 8 := by
    intro x hx
    rw [UInt32.toNat_add, hdepth, Nat.mod_eq_of_lt (by omega)]
  have hone := hadd s.curX (by omega)
  by_cases hc : c = '\n'.toUInt8
  · subst hc
    exact iff_of_true h.newline (stays_newline s)
  · by_cases hback : c = 8
    · subst hback
      exact h.backspace_iff
    · by_cases htab : c = '\t'.toUInt8
      · subst htab
        have htwo := hadd (s.curX + displayBitdepth) (by omega)
        have hthree := hadd (s.curX + displayBitdepth + displayBitdepth) (by omega)
        have hfour := hadd (s.curX + displayBitdepth + displayBitdepth + displayBitdepth) (by omega)
        have hswitch : putSwitch s '\t'.toUInt8 = putBlank (putBlank (putBlank (putBlank s))) := by
          rw [putSwitch, if_neg hc, if_neg hback, if_pos rfl]
        apply h.columns_iff (hswitch ▸ putTab_moved s) hc hback (by omega)
        case hwraps =>
            rw [wraps_tab]
            omega
        case hpixels =>
            intro hstays
            rw [List.forall_mem_append, List.forall_mem_append, List.forall_mem_append]
            refine ⟨⟨⟨?_, ?_⟩, ?_⟩, ?_⟩ <;> exact glyphPixels_lt hy (by omega) (by omega)
      · have hswitch : putSwitch s c = advance (putDisplay s c) := by
          rw [putSwitch, if_neg hc, if_neg hback, if_neg htab]
        apply h.columns_iff (hswitch ▸ putDefault_moved s c) hc hback (by omega)
        case hwraps =>
            rw [wraps_default hback htab]
            omega
        case hpixels =>
            intro _
            exact glyphPixels_lt hy (by omega) (by omega)

end Characters

/-! ## Whole texts -/

section Texts

variable {s s' : VbeState}

/-- A cleared screen; the pixels that are written from here on are looked at. -/
def clearedScreen (s : VbeState) : VbeState := { vbeClearScreen s with pixels := [] }

theorem clearBanks_kept (s : VbeState) (banks : List Nat) :
    (banks.foldl (fun s bank => clearMem (vbeSetBank s (UInt16.ofNat bank)) (4096 * 16)) s).lfb = s.lfb ∧
      (banks.foldl (fun s bank => clearMem (vbeSetBank s (UInt16.ofNat bank)) (4096 * 16)) s).vgaMem = s.vgaMem := by
  induction banks generalizing s with
  | nil => exact ⟨rfl, rfl⟩
  | cons bank banks ih => exact ih (clearMem (vbeSetBank s (UInt16.ofNat bank)) (4096 * 16))

theorem clearedScreen_ready (s : VbeState) (hlfb : s.lfb = true) (hmem : s.vgaMem = true) :
    (clearedScreen s).Ready := by
  have hbanks : ¬ s.lfb = false := by
    rw [hlfb]
    decide
  have hloop := clearBanks_kept s (List.range lastBank.toNat)
  rw [clearedScreen, vbeClearScreen, if_neg hbanks]
  generalize (List.range lastBank.toNat).foldl
    (fun s bank => clearMem (vbeSetBank s (UInt16.ofNat bank)) (4096 * 16)) s = t at hloop
  constructor
  case onScreen =>
      constructor
      case curX_lt => exact Nat.zero_lt_succ _
      case curX_mod => rfl
      case curY_le => exact Nat.zero_le _
      case curY_mod => rfl
      case pixels_lt =>
          intro i hi
          cases hi
  case lfb => exact hloop.1.trans hlfb
  case vgaMem => exact hloop.2.trans hmem
  case curBank => rfl

/-- The switch moves the cursor somewhere. -/
theorem putSwitch_moved (hbank : s.curBank ≠ lastBank) (c : UInt8) :
    ∃ x y ps, Moved s (putSwitch s c) x y ps := by
  rw [putSwitch]
  split
  · exact ⟨_, _, _, putNewline_moved hbank⟩
  · split
    · exact ⟨_, _, _, putBackspace_moved s⟩
    · split
      · exact ⟨_, _, _, putTab_moved s⟩
      · exact ⟨_, _, _, putDefault_moved s c⟩

/-- A character that stays on the screen, and the cursor. -/
theorem vbeStep_keeps {op : VbeOp} (h : s.Ready) (hstep : VbeStep s op s') (hstays : op.Stays s) : s'.Ready := by
  have hx := h.onScreen.curX_lt
  have hxmod := h.onScreen.curX_mod
  rw [VbeStep] at hstep
  subst hstep
  cases op with
  | char c =>
      have hbank : s.curBank ≠ lastBank := by
        rw [h.curBank]
        decide
      obtain ⟨x, y, ps, hmoved⟩ := putSwitch_moved hbank c
      have hput := putChar_moved h.lfb h.vgaMem hmoved
      exact ⟨(h.char_iff c).mpr hstays, hput.lfb.trans h.lfb, hput.vgaMem.trans h.vgaMem,
        hput.curBank.trans h.curBank⟩
  | cursor =>
      have hmapped : ¬ s.vgaMem = false := by
        rw [h.vgaMem]
        decide
      have hdrawn := vbePutchar_moved s ' '.toUInt8 s.curY s.curX displayBgColor displayFgColor
      rw [VbeOp.run, putChar, if_neg hmapped, if_pos rfl]
      generalize vbePutchar s ' '.toUInt8 s.curY s.curX displayBgColor displayFgColor = t at hdrawn
      constructor
      case onScreen =>
          constructor
          case curX_lt => exact hdrawn.curX ▸ hx
          case curX_mod => exact hdrawn.curX ▸ hxmod
          case curY_le => exact hdrawn.curY ▸ h.onScreen.curY_le
          case curY_mod => exact hdrawn.curY ▸ h.onScreen.curY_mod
          case pixels_lt =>
              rw [hdrawn.pixels, List.forall_mem_append]
              exact ⟨h.onScreen.pixels_lt, glyphPixels_lt h.onScreen.curY_le (by omega) (by omega)⟩
      case lfb => exact hdrawn.lfb.trans h.lfb
      case vgaMem => exact hdrawn.vgaMem.trans h.vgaMem
      case curBank => exact hdrawn.curBank.trans h.curBank

/-- A character that leaves the screen. -/
theorem vbeStep_leaves {op : VbeOp} (h : s.Ready) (hstep : VbeStep s op s') (hscreen : s'.OnScreen) :
    op.Stays s := by
  rw [VbeStep] at hstep
  subst hstep
  cases op with
  | char c => exact (h.char_iff c).mp hscreen
  | cursor => trivial

/-- A call is the calls of `__put_char` that it makes. -/
theorem VbeCall.run_eq (call : VbeCall) (s : VbeState) : call.run s = call.ops.foldl VbeOp.run s := by
  cases call with
  | putChar c =>
      rw [VbeCall.run, vbePutChar, VbeCall.ops, List.foldl_cons]
      split <;> rfl
  | putStr before str =>
      rw [VbeCall.run, vbePutStr, VbeCall.ops, List.foldl_append, List.foldl_map]
      split <;> rfl

/-- Calls are runs. -/
theorem run_calls (s : VbeState) (calls : List VbeCall) :
    Run VbeStep s (calls.flatMap VbeCall.ops) (calls.foldl VbeCall.run s) := by
  have hrun : ∀ ops : List VbeOp, Run VbeStep s ops (ops.foldl VbeOp.run s) := by
    intro ops
    induction ops using List.reverseRecOn with
    | nil => exact .nil
    | append_singleton ops op ih =>
        rw [List.foldl_append]
        exact .snoc ih rfl
  have hcalls : ∀ s, calls.foldl VbeCall.run s = (calls.flatMap VbeCall.ops).foldl VbeOp.run s := by
    induction calls with
    | nil => exact fun s => rfl
    | cons call calls ih =>
        intro s
        rw [List.foldl_cons, ih (call.run s), List.flatMap_cons, List.foldl_append, call.run_eq]
  rw [hcalls]
  exact hrun _

/-- From a cleared screen, the cursor and all pixels are on the screen after every character of a text, just when
every character of it stays there. -/
theorem console_on_screen_iff (s : VbeState) (hlfb : s.lfb = true) (hmem : s.vgaMem = true)
    (calls : List VbeCall) :
    ((∀ pre t, pre <+: calls.flatMap VbeCall.ops → Run VbeStep (clearedScreen s) pre t → t.OnScreen) ∧
        (calls.foldl VbeCall.run (clearedScreen s)).OnScreen) ↔
      ∀ pre op t u, pre ++ [op] <+: calls.flatMap VbeCall.ops → Run VbeStep (clearedScreen s) pre t →
        VbeStep t op u → op.Stays t := by
  have hkeep : ∀ (s : VbeState) op t, s.Ready → VbeStep s op t → op.Stays s → t.Ready :=
    fun s op t h hstep hstays => vbeStep_keeps h hstep hstays
  have hbreak : ∀ (s : VbeState) op t, s.Ready → VbeStep s op t → t.OnScreen → op.Stays s :=
    fun s op t h hstep hscreen => vbeStep_leaves h hstep hscreen
  have hsafe := Run.safe_iff (fun s h => VbeState.Ready.onScreen h) hkeep hbreak
    (clearedScreen_ready s hlfb hmem) (calls.flatMap VbeCall.ops)
  constructor
  · exact fun h => hsafe.mp h.1
  · intro hstays
    have hall := hsafe.mpr hstays
    exact ⟨hall, hall _ _ List.prefix_rfl (run_calls (clearedScreen s) calls)⟩

/-- A console with a linear frame buffer. -/
def lfbConsole : VbeState where
  lfb := true
  vgaMem := true
  banks _ _ := 0
  fontMap _ := 0
  curX := 0
  curY := 0
  curBank := 0
  lineBuffer0 _ := 0
  lineBuffer1 _ := 0
  pixels := []

/-- The state that a run of characters leads to. -/
theorem run_eq_foldl {s t : VbeState} {ops : List VbeOp} (hrun : Run VbeStep s ops t) :
    t = ops.foldl VbeOp.run s := by
  induction hrun with
  | nil => rfl
  | snoc _ hstep ih =>
      rw [List.foldl_append, ← ih]
      exact hstep

/-- Two letters, the second one deleted again, and a newline. -/
theorem corrected_line_on_screen :
    ([VbeCall.putStr 0 [72, 105, 8, '\n'.toUInt8]].foldl VbeCall.run (clearedScreen lfbConsole)).OnScreen := by
  apply ((console_on_screen_iff lfbConsole rfl rfl [.putStr 0 [72, 105, 8, '\n'.toUInt8]]).mpr _).2
  intro pre op t u hpre hrun _
  have hops : pre ++ [op] <+: [.char 72, .char 105, .char 8] ++ [.char '\n'.toUInt8] := hpre
  rw [run_eq_foldl hrun]
  rcases concat_prefix_concat hops with ⟨-, rfl⟩ | hops
  · exact stays_newline _
  · rcases concat_prefix_concat (show pre ++ [op] <+: [.char 72, .char 105] ++ [.char 8] from hops) with
      ⟨rfl, rfl⟩ | hops
    · exact ⟨by decide, fun hlast => absurd hlast.2.1 (by decide)⟩
    · rcases concat_prefix_pair hops with ⟨rfl, rfl⟩ | ⟨rfl, rfl⟩
      · exact ⟨by decide, fun hlast => absurd hlast.2.1 (by decide)⟩
      · exact ⟨by decide, fun hlast => absurd hlast.2.1 (by decide)⟩

/-- A backspace in the corner of a cleared screen is drawn outside of it. -/
theorem backspace_leaves_screen : ¬ ∀ (s : VbeState) (calls : List VbeCall), s.lfb = true → s.vgaMem = true →
    (∀ pre t, pre <+: calls.flatMap VbeCall.ops → Run VbeStep (clearedScreen s) pre t → t.OnScreen) ∧
      (calls.foldl VbeCall.run (clearedScreen s)).OnScreen := by
  intro hall
  have hready := clearedScreen_ready lfbConsole rfl rfl
  have hscreen := (hall lfbConsole [.putStr 0 [8]] rfl rfl).1 [.char 8] (putChar (clearedScreen lfbConsole) 8 false)
    ⟨[.cursor], rfl⟩ (.snoc (t := clearedScreen lfbConsole) .nil rfl)
  have hstays := (hready.char_iff 8).mp hscreen
  exact hstays.1 ⟨rfl, rfl, rfl⟩

end Texts

end Drivers
end Micael
