import Micael.Drivers.Tty
import Micael.Fs.Pipe

/-!
# The keyboard

Every scan code raises an interrupt.  The handler keeps a flag for the shift keys, looks the character up in a
table and writes it to a pipe of 64 bytes, out of which the terminal reads one character at a time.  A read of one
character leaves the pointer of the pipe as it was when more characters are unread: the last one stands in the
pipe twice then.

An interrupt is taken between two reads.  A write to a full pipe would put the interrupted task to sleep and stops
the model, and so does a character behind the table.

Main results:

- Theorem {lit}`KbdView.Shows.step`: what every interrupt and every read keeps.
- Theorem {lit}`kbd_reads_stream`: the characters that the terminal reads, in any run.
- Theorem {lit}`kbd_shift_iff_held`: when the flag says that a shift key is held, throughout a run.
- Theorem {lit}`tty_returns_without_key_iff`: when a read of the terminal waits for a key.
-/

namespace Micael
namespace Drivers

open Foundation Kernel Fs

/-! ## The handler -/

/-- `L_SHIFT`. -/
def lShift : UInt8 := 42

/-- `R_SHIFT`. -/
def rShift : UInt8 := 54

/-- The entries of `codes` that are their own index: `CONTROL`, the shift keys, `ALT`, `CAPSLOCK`, `F1` to `F10`
and the arrows. -/
def namedCodes : List Nat := [29, 42, 54, 56, 58, 59, 60, 61, 62, 63, 64, 65, 66, 67, 68, 72, 75, 77, 80]

/-- The entries of `codes` that are characters. -/
def charCodes : List (Nat × Char) := [
  (2, '1'), (3, '2'), (4, '3'), (5, '4'), (6, '5'),
  (7, '6'), (8, '7'), (9, '8'), (10, '9'), (11, '0'),
  (12, '-'), (13, '='), (14, Char.ofNat 8), (15, '\t'), (16, 'q'),
  (17, 'w'), (18, 'e'), (19, 'r'), (20, 't'), (21, 'y'),
  (22, 'u'), (23, 'i'), (24, 'o'), (25, 'p'), (26, '['),
  (27, ']'), (28, '\n'), (30, 'a'), (31, 's'),
  (32, 'd'), (33, 'f'), (34, 'g'), (35, 'h'), (36, 'j'),
  (37, 'k'), (38, 'l'), (39, ';'), (40, Char.ofNat 39), (41, Char.ofNat 96),
  (43, Char.ofNat 92), (44, 'z'), (45, 'x'), (46, 'c'),
  (47, 'v'), (48, 'b'), (49, 'n'), (50, 'm'), (51, ','),
  (52, '.'), (53, '/'), (55, '*'), (57, ' '), (78, '+'),
  (132, '!'), (133, Char.ofNat 34), (134, '#'), (136, '%'), (137, '&'),
  (138, '/'), (139, '('), (140, ')'), (141, '='), (142, '_'),
  (146, 'Q'), (147, 'W'), (148, 'E'), (149, 'R'), (150, 'T'),
  (151, 'Y'), (152, 'U'), (153, 'I'), (154, 'O'), (155, 'P'),
  (156, '<'), (157, '>'), (160, 'A'), (161, 'S'), (162, 'D'),
  (163, 'F'), (164, 'G'), (165, 'H'), (166, 'J'), (167, 'K'),
  (168, 'L'), (174, 'Z'), (175, 'X'), (176, 'C'), (177, 'V'),
  (178, 'B'), (179, 'N'), (180, 'M'), (181, ';'), (182, ':')]

/-- `codes`: an entry without a value is zero. -/
def codes (i : Nat) : UInt8 :=
  if i ∈ namedCodes then UInt8.ofNat i else ((charCodes.lookup i).map Char.toUInt8).getD 0

/-- `codes` from an entry on. -/
def codesFrom (i : Nat) : Memory := fun x => codes (i + x)

/-- The number of entries of `codes`. -/
def codesSize : Nat := 256

/-- The scan code says that a key was released. -/
def isRelease (code : UInt8) : Bool := code &&& 0x80 ≠ 0

/-- The key of a scan code. -/
def scanKey (code : UInt8) : UInt8 := code &&& ~~~0x80

/-- The key is a shift key. -/
def isShift (key : UInt8) : Bool := key = rShift ∨ key = lShift

/-- The variables of the driver: `shift_down` and `ps2_pipe`. -/
structure Kbd where
  shiftDown : Bool
  pipe : Pipe

/-- Why the handler does not return. -/
inductive KbdStop where
  /-- The address lies behind `codes`. -/
  | pastCodes
  | pipe (stop : PipeStop)
deriving DecidableEq, Repr

/-- The index into `codes`. -/
def codesIndex (shiftDown : Bool) (sc : UInt8) : Nat := if shiftDown then sc.toNat + 130 else sc.toNat

/-- `__kbd_handler`, with the byte that `inb` returns. -/
def kbdHandler (s : Kbd) (code : UInt8) : Except KbdStop Kbd :=
  if isRelease code then
    if isShift (scanKey code) then .ok { s with shiftDown := false } else .ok s
  else if isShift code then .ok { s with shiftDown := true }
  else
    let i := codesIndex s.shiftDown code
    if codesSize ≤ i then .error .pastCodes
    else
      match pipeWrite (some s.pipe) (some (codesFrom i)) 1 with
      | .ok (pipe, _) => .ok { s with pipe := pipe }
      | .error stop => .error (.pipe stop)

/-- `ps2_init`: `mem` is what `kmalloc` returned for the pipe. -/
def ps2Init (mem : Memory) : Kbd := ⟨false, ⟨mem, 64, 0⟩⟩

/-- What happens at the keyboard: a scan code arrives, or the terminal reads a character. -/
inductive KbdEvent where
  | scan (code : UInt8)
  | read (c : UInt8)
deriving DecidableEq, Repr

/-- One interrupt, or one read of one character: `file_read(file->f_private, 0, 1, &c)`. -/
inductive KbdStep : Kbd → KbdEvent → Kbd → Prop
  | scan {s t : Kbd} {code : UInt8} : kbdHandler s code = .ok t → KbdStep s (.scan code) t
  | read {s : Kbd} {pipe : Pipe} {buffer buffer' : Memory} {nread : Nat} :
      pipeRead (some s.pipe) (some buffer) 1 = .ok (pipe, buffer', nread) →
        KbdStep s (.read (buffer' 0)) { s with pipe := pipe }

/-! ## The characters of a run -/

/-- The last scan code whose key satisfies a condition is that of a press. -/
def pressedLast (p : UInt8 → Bool) (scanned : List UInt8) : Bool :=
  (scanned.reverse.find? fun code => p (scanKey code)).any fun code => !isRelease code

/-- The last code of a shift key is that of a press. -/
def shiftAfter (scanned : List UInt8) : Bool := pressedLast isShift scanned

/-- The key is held. -/
def heldAfter (key : UInt8) (scanned : List UInt8) : Bool := pressedLast (· = key) scanned

/-- The scan code is that of a press of a key with a character. -/
def Prints (code : UInt8) : Prop := isRelease code = false ∧ isShift code = false

instance (code : UInt8) : Decidable (Prints code) := inferInstanceAs (Decidable (_ ∧ _))

/-- The character that is typed with a scan code after others, if any. -/
def typed (scanned : List UInt8) (code : UInt8) : List UInt8 :=
  if Prints code then [codes (codesIndex (shiftAfter scanned) code)] else []

/-- What the events of a run say: the scan codes, the characters that go through the pipe, and how many of them
were read. -/
structure KbdView where
  scanned : List UInt8
  stream : List UInt8
  reads : Nat

/-- One event: a read that leaves characters behind sends the last one again. -/
def KbdView.event (v : KbdView) : KbdEvent → KbdView
  | .scan code => { v with scanned := v.scanned ++ [code], stream := v.stream ++ typed v.scanned code }
  | .read _ =>
      { v with
        stream := v.stream ++ if v.reads + 1 < v.stream.length then v.stream.getLast?.toList else []
        reads := v.reads + 1 }

/-- What the events of a run say. -/
def kbdView (events : List KbdEvent) : KbdView := events.foldl KbdView.event ⟨[], [], 0⟩

/-- The characters that the terminal has read. -/
def charsRead (events : List KbdEvent) : List UInt8 :=
  events.flatMap fun
    | .scan _ => []
    | .read c => [c]

/-- The characters in the pipe. -/
def Kbd.unread (s : Kbd) : List UInt8 := s.pipe.mem.bytes 0 s.pipe.ptr

/-! ## The pipe, one character at a time -/

section Steps

variable {s t : Kbd} {code c : UInt8}

theorem length_unread : s.unread.length = s.pipe.ptr :=
  Memory.length_bytes

/-- The first of the bytes, and those behind it. -/
theorem bytes_succ_cons (mem : Memory) (a n : Nat) : mem.bytes a (n + 1) = mem a :: mem.bytes (a + 1) n := by
  rw [Nat.add_comm n 1, Memory.bytes_add]
  simp [Memory.bytes]

/-- A write of one character. -/
theorem pipeWrite_one {pipe : Pipe} {buffer : Memory} (hsize : pipe.size < 2 ^ 64) (hptr : pipe.ptr ≤ pipe.size) :
    pipeWrite (some pipe) (some buffer) 1 =
      if pipe.ptr = pipe.size then .error .sleepWriter
      else .ok ({ pipe with mem := kmemcpy pipe.mem pipe.ptr buffer 0 1, ptr := pipe.ptr + 1 }, 1) := by
  have hfree : u64 (pipe.size + 2 ^ 64 - pipe.ptr) = pipe.size - pipe.ptr := by
    unfold u64
    omega
  rw [pipeWrite, if_neg Nat.one_ne_zero, Fs.write, hfree]
  split
  case isTrue hfull => rw [if_pos (by omega)]
  case isFalse hroom => rw [if_neg (by omega), u64_eq_of_lt (by omega)]

/-- A character that is written stands behind the others. -/
theorem bytes_write_one (mem : Memory) (n : Nat) (buffer : Memory) :
    (kmemcpy mem n buffer 0 1).bytes 0 (n + 1) = mem.bytes 0 n ++ [buffer 0] := by
  rw [Memory.bytes_add, bytes_kmemcpy_of_disjoint (by omega), Nat.zero_add, bytes_kmemcpy]
  simp [Memory.bytes]

/-- The pipe after a read of one character. -/
def readOne (pipe : Pipe) : Pipe :=
  if pipe.ptr = 1 then { pipe with ptr := 0 } else { pipe with mem := kmemmove pipe.mem 0 1 (pipe.ptr - 1) }

/-- A read of one character. -/
theorem pipeRead_one {pipe : Pipe} {buffer : Memory} (hptr : pipe.ptr < 2 ^ 64) :
    pipeRead (some pipe) (some buffer) 1 =
      if pipe.ptr = 0 then .error .sleepReader
      else .ok (readOne pipe, kmemcpy buffer 0 pipe.mem 0 1, 1) := by
  rw [pipeRead, if_neg Nat.one_ne_zero, Fs.read]
  split
  case isTrue => rfl
  case isFalse hne =>
      by_cases hone : pipe.ptr = 1
      · simp [readOne, hone]
      · simp [readOne, hone, u64_eq_of_lt hptr, show 1 < pipe.ptr by omega, show ¬ pipe.ptr ≤ 1 by omega]

/-- What a read of one character leaves: nothing, or the others with the last one twice. -/
theorem unread_readOne (pipe : Pipe) (hptr : 0 < pipe.ptr) :
    (readOne pipe).mem.bytes 0 (readOne pipe).ptr =
      (pipe.mem.bytes 0 pipe.ptr).tail ++
        if 1 < pipe.ptr then (pipe.mem.bytes 0 pipe.ptr).getLast?.toList else [] := by
  obtain ⟨n, hn⟩ := Nat.exists_eq_add_of_lt hptr
  rw [Nat.zero_add] at hn
  by_cases hone : n = 0
  · simp [readOne, hn, hone, Memory.bytes]
  · have hmoved : ∀ x, kmemmove pipe.mem 0 1 n x = if x < n then pipe.mem (x + 1) else pipe.mem x := by
      intro x
      simp [kmemmove_apply, Nat.add_comm]
    have hfront : (kmemmove pipe.mem 0 1 n).bytes 0 n = pipe.mem.bytes 1 n := by
      apply Memory.bytes_eq_of_apply
      intro i hi
      rw [hmoved, Nat.zero_add, if_pos hi, Nat.add_comm]
    have hlast : kmemmove pipe.mem 0 1 n n = pipe.mem n := by rw [hmoved, if_neg (Nat.lt_irrefl n)]
    have hread : readOne pipe = { pipe with mem := kmemmove pipe.mem 0 1 n } := by simp [readOne, hn, hone]
    rw [hread, hn, bytes_succ (kmemmove pipe.mem 0 1 n), hfront, hlast, bytes_succ_cons, List.tail_cons,
      if_pos (by omega), ← bytes_succ_cons, bytes_succ]
    simp

/-! ## Steps -/

/-- One more scan code. -/
theorem pressedLast_concat (p : UInt8 → Bool) (scanned : List UInt8) (code : UInt8) :
    pressedLast p (scanned ++ [code]) =
      if p (scanKey code) then !isRelease code else pressedLast p scanned := by
  cases hp : p (scanKey code) <;> simp [pressedLast, hp]

/-- A scan code of a press is its own key. -/
theorem scanKey_of_press (h : isRelease code = false) : scanKey code = code := by
  have hall : ∀ n < 256, isRelease (UInt8.ofNat n) = false → scanKey (UInt8.ofNat n) = UInt8.ofNat n := by
    decide +kernel
  have hcode := hall code.toNat code.toNat_lt
  rw [UInt8.ofNat_toNat] at hcode
  exact hcode h

/-- The state agrees with what the events say. -/
structure KbdView.Shows (v : KbdView) (s : Kbd) : Prop where
  size : s.pipe.size = 64
  shift : s.shiftDown = shiftAfter v.scanned
  reads : v.reads ≤ v.stream.length
  unread : s.unread = v.stream.drop v.reads
  fits : s.pipe.ptr ≤ 64

theorem KbdView.Shows.ptr {v : KbdView} (h : v.Shows s) : s.pipe.ptr = v.stream.length - v.reads := by
  rw [← length_unread, h.unread, List.length_drop]

theorem ps2Init_shows (mem : Memory) : (kbdView []).Shows (ps2Init mem) where
  size := rfl
  shift := rfl
  reads := Nat.zero_le _
  unread := rfl
  fits := Nat.zero_le _

/-- What the handler does with a scan code. -/
theorem kbdHandler_eq {v : KbdView} (h : v.Shows s) (code : UInt8) :
    kbdHandler s code =
      if Prints code then
        if codesSize ≤ codesIndex (shiftAfter v.scanned) code then .error .pastCodes
        else if v.stream.length = v.reads + 64 then .error (.pipe .sleepWriter)
        else
          .ok { s with
            pipe := { s.pipe with
              mem := kmemcpy s.pipe.mem s.pipe.ptr (codesFrom (codesIndex (shiftAfter v.scanned) code)) 0 1
              ptr := s.pipe.ptr + 1 } }
      else .ok { s with shiftDown := shiftAfter (v.scanned ++ [code]) } := by
  have hshift : shiftAfter (v.scanned ++ [code]) =
      if isShift (scanKey code) then !isRelease code else s.shiftDown := by
    rw [h.shift]
    exact pressedLast_concat isShift v.scanned code
  have hfull : s.pipe.ptr = s.pipe.size ↔ v.stream.length = v.reads + 64 := by
    have hptr := h.ptr
    have hreads := h.reads
    rw [h.size]
    omega
  rw [kbdHandler, hshift]
  cases hrelease : isRelease code with
  | true => cases hkey : isShift (scanKey code) <;> simp [Prints, hrelease]
  | false =>
      rw [scanKey_of_press hrelease]
      cases hkey : isShift code with
      | true => simp [Prints, hrelease, hkey]
      | false =>
          have hprints : Prints code := ⟨hrelease, hkey⟩
          have hsize : s.pipe.size < 2 ^ 64 := by rw [h.size]; decide
          have hwrite (i : Nat) := @pipeWrite_one s.pipe (codesFrom i) hsize (h.size ▸ h.fits)
          simp only [if_pos hprints, ← h.shift, hwrite, hfull, Bool.false_eq_true, if_false]
          split
          case isTrue => rfl
          case isFalse => by_cases hlength : v.stream.length = v.reads + 64 <;> simp [hlength]

/-- A scan code that the handler returns from. -/
theorem KbdView.Shows.scan {v : KbdView} (h : v.Shows s) (hstep : KbdStep s (.scan code) t) :
    (v.event (.scan code)).Shows t := by
  cases hstep with
  | scan hok =>
      rw [kbdHandler_eq h] at hok
      split at hok
      case isFalse hprints =>
          obtain rfl := Except.ok.inj hok
          constructor
          case size => exact h.size
          case shift => rfl
          case reads => simpa [KbdView.event, typed, hprints] using h.reads
          case unread => simpa [Kbd.unread, KbdView.event, typed, hprints] using h.unread
          case fits => exact h.fits
      case isTrue hprints =>
          obtain ⟨-, hok⟩ := guard_eq_ok.mp hok
          obtain ⟨hroom, hok⟩ := guard_eq_ok.mp hok
          obtain rfl := Except.ok.inj hok
          have hptr := h.ptr
          have hfits := h.fits
          have hreads := h.reads
          have hsame : shiftAfter (v.scanned ++ [code]) = shiftAfter v.scanned := by
            simp [shiftAfter, pressedLast_concat, scanKey_of_press hprints.1, hprints.2]
          constructor
          case size => exact h.size
          case shift => exact h.shift.trans hsame.symm
          case reads => exact hreads.trans (List.length_append ▸ Nat.le_add_right _ _)
          case unread =>
              have hold : s.pipe.mem.bytes 0 s.pipe.ptr = v.stream.drop v.reads := h.unread
              simp only [Kbd.unread, KbdView.event, typed, if_pos hprints]
              rw [bytes_write_one, hold, List.drop_append_of_le_length hreads]
              rfl
          case fits => dsimp only; omega

/-- What a read of one character takes, and what it leaves. -/
theorem KbdView.Shows.read {v : KbdView} (h : v.Shows s) (hstep : KbdStep s (.read c) t) :
    v.stream[v.reads]? = some c ∧ (v.event (.read c)).Shows t := by
  have hptr := h.ptr
  have hfits := h.fits
  generalize hevent : KbdEvent.read c = event at hstep
  cases hstep with
  | scan => cases hevent
  | read hok =>
      rw [pipeRead_one (by omega)] at hok
      obtain ⟨hpos, hok⟩ := guard_eq_ok.mp hok
      obtain ⟨rfl, hrest⟩ := Prod.mk.inj (Except.ok.inj hok)
      obtain ⟨rfl, -⟩ := Prod.mk.inj hrest
      obtain rfl := KbdEvent.read.inj hevent
      have hlt : v.reads < v.stream.length := by omega
      have hunread : s.pipe.mem.bytes 0 s.pipe.ptr = v.stream.drop v.reads := h.unread
      have hlast : (v.stream.drop v.reads).getLast? = v.stream.getLast? := by
        rw [List.getLast?_drop, if_neg (by omega)]
      have hmore : 1 < s.pipe.ptr ↔ v.reads + 1 < v.stream.length := by omega
      refine ⟨?_, ?_⟩
      · obtain ⟨n, hn⟩ := Nat.exists_eq_succ_of_ne_zero hpos
        rw [hn, bytes_succ_cons, List.drop_eq_getElem_cons hlt] at hunread
        simpa [kmemcpy_apply, hlt] using (List.cons.inj hunread).1.symm
      · constructor
        case size =>
            simp only [readOne]
            split <;> exact h.size
        case shift => exact h.shift
        case reads => simp only [KbdView.event, List.length_append]; omega
        case unread =>
            simp only [Kbd.unread, KbdView.event]
            rw [unread_readOne _ (by omega), hunread, hlast, List.tail_drop,
              List.drop_append_of_le_length hlt]
            simp only [hmore]
        case fits =>
            simp only [readOne]
            split
            · exact Nat.zero_le _
            · exact hfits

/-- Every interrupt and every read keeps what the events say. -/
theorem KbdView.Shows.step {v : KbdView} {event : KbdEvent} (h : v.Shows s) (hstep : KbdStep s event t) :
    (v.event event).Shows t := by
  cases event with
  | scan code => exact h.scan hstep
  | read c => exact (h.read hstep).2

theorem kbdView_concat (events : List KbdEvent) (event : KbdEvent) :
    kbdView (events ++ [event]) = (kbdView events).event event := by
  simp [kbdView]

/-- What the events of a run say, after earlier ones: the state agrees, and what was read is the front of what
goes through the pipe. -/
theorem KbdView.Shows.run {v : KbdView} {events : List KbdEvent} (h : v.Shows s) (hrun : Run KbdStep s events t) :
    (events.foldl KbdView.event v).Shows t ∧
      (events.foldl KbdView.event v).stream.take (events.foldl KbdView.event v).reads =
        v.stream.take v.reads ++ charsRead events := by
  induction hrun with
  | nil => exact ⟨h, by simp [charsRead]⟩
  | @snoc earlier mid last event _ hlast ih =>
      obtain ⟨hmid, hread⟩ := ih
      rw [List.foldl_append, List.foldl_cons, List.foldl_nil]
      refine ⟨hmid.step hlast, ?_⟩
      cases event with
      | scan code =>
          simpa [KbdView.event, charsRead, List.take_append_of_le_length hmid.reads] using hread
      | read c =>
          obtain ⟨hlt, hc⟩ := List.getElem?_eq_some_iff.mp (hmid.read hlast).1
          simp only [KbdView.event]
          rw [List.take_append_of_le_length (by omega), List.take_succ_eq_append_getElem hlt, hread, hc]
          simp [charsRead]

/-- What every state of a run has. -/
theorem kbdView_shows {mem : Memory} {events : List KbdEvent} (hrun : Run KbdStep (ps2Init mem) events t) :
    (kbdView events).Shows t :=
  ((ps2Init_shows mem).run hrun).1

/-- The handler does not return from a key with a character that has no entry in the table, or for which there is
no room. -/
theorem scan_returns_iff {v : KbdView} (h : v.Shows s) :
    (∃ t, KbdStep s (.scan code) t) ↔
      ¬ (Prints code ∧ (s.unread.length = 64 ∨ shiftAfter v.scanned = true ∧ (code = 126 ∨ code = 127))) := by
  have hfull : s.unread.length = 64 ↔ v.stream.length = v.reads + 64 := by
    have hreads := h.reads
    rw [h.unread, List.length_drop]
    omega
  have hstep : (∃ t, KbdStep s (.scan code) t) ↔ ∃ t, kbdHandler s code = .ok t := by
    constructor
    · rintro ⟨t, hstep⟩
      cases hstep with
      | scan hok => exact ⟨t, hok⟩
    · rintro ⟨t, hok⟩
      exact ⟨t, .scan hok⟩
  rw [hstep, kbdHandler_eq h, hfull]
  by_cases hprints : Prints code
  · have hindex : codesSize ≤ codesIndex (shiftAfter v.scanned) code ↔
        shiftAfter v.scanned = true ∧ (code = 126 ∨ code = 127) := by
      have hall : ∀ n < 256, isRelease (UInt8.ofNat n) = false →
          ∀ b, codesSize ≤ codesIndex b (UInt8.ofNat n) ↔
            b = true ∧ (UInt8.ofNat n = 126 ∨ UInt8.ofNat n = 127) := by
        decide +kernel
      have hcode := hall code.toNat code.toNat_lt
      rw [UInt8.ofNat_toNat] at hcode
      exact hcode hprints.1 _
    simp only [hindex, hprints, true_and]
    by_cases hpast : shiftAfter v.scanned = true ∧ (code = 126 ∨ code = 127)
    · simp [hpast]
    · by_cases hlength : v.stream.length = v.reads + 64 <;> simp [hpast, hlength]
  · simp [hprints]

/-- A read of the terminal sleeps while the pipe is empty. -/
theorem read_returns_iff {v : KbdView} (h : v.Shows s) : (∃ c t, KbdStep s (.read c) t) ↔ s.unread ≠ [] := by
  have hfits := h.fits
  have hread := @pipeRead_one s.pipe s.pipe.mem (by omega)
  have hnil : s.unread ≠ [] ↔ s.pipe.ptr ≠ 0 := by rw [← length_unread, ne_eq, ne_eq, List.length_eq_zero_iff]
  rw [hnil]
  constructor
  · rintro ⟨c, t, hstep⟩ hzero
    obtain ⟨hlt, -⟩ := List.getElem?_eq_some_iff.mp (h.read hstep).1
    have hptr := h.ptr
    omega
  · intro hne
    rw [if_neg hne] at hread
    exact ⟨_, _, .read hread⟩

/-! ## Runs -/

/-- In every run of interrupts and reads, the characters that the terminal has read and those that are unread are,
in order, the characters that were typed, with the last one again for every read that left characters behind.  The
handler does not return from a key whose character has no room, or lies behind the table; a read does not return
while nothing is unread. -/
theorem kbd_reads_stream {mem : Memory} {events : List KbdEvent} (hrun : Run KbdStep (ps2Init mem) events t) :
    charsRead events ++ t.unread = (kbdView events).stream ∧
      (charsRead events).length = (kbdView events).reads ∧
      (∀ code, (∃ u, KbdStep t (.scan code) u) ↔
        ¬ (Prints code ∧ (t.unread.length = 64 ∨
          shiftAfter (kbdView events).scanned = true ∧ (code = 126 ∨ code = 127)))) ∧
      ((∃ c u, KbdStep t (.read c) u) ↔ t.unread ≠ []) := by
  obtain ⟨hshows, hread⟩ := (ps2Init_shows mem).run hrun
  change (kbdView events).stream.take (kbdView events).reads = charsRead events at hread
  refine ⟨?_, ?_, fun code => scan_returns_iff hshows, read_returns_iff hshows⟩
  · rw [← hread, show t.unread = _ from hshows.unread]
    exact List.take_append_drop _ _
  · rw [← hread, List.length_take]
    exact Nat.min_eq_left hshows.reads

/-- Two keys. -/
theorem run_two_keys : ∃ u, Run KbdStep (ps2Init fun _ => 0) [.scan 30, .scan 31] u := by
  obtain ⟨s, hfirst⟩ : ∃ s, KbdStep (ps2Init fun _ => 0) (.scan 30) s := ⟨_, .scan rfl⟩
  have hone : Run KbdStep (ps2Init fun _ => 0) [.scan 30] s := .snoc .nil hfirst
  obtain ⟨u, hsecond⟩ : ∃ u, KbdStep s (.scan 31) u :=
    (scan_returns_iff (kbdView_shows hone)).mpr (by rw [(kbdView_shows hone).unread]; decide)
  exact ⟨u, .snoc hone hsecond⟩

/-- Two keys, and a read: the second character stands in the pipe twice. -/
theorem kbd_reads_stream_two : ∃ t, Run KbdStep (ps2Init fun _ => 0) [.scan 30, .scan 31, .read 97] t ∧
    [97] ++ t.unread = [97, 115, 115] := by
  obtain ⟨u, htwo⟩ := run_two_keys
  obtain ⟨c, t, hread⟩ : ∃ c t, KbdStep u (.read c) t :=
    (read_returns_iff (kbdView_shows htwo)).mpr (by rw [(kbdView_shows htwo).unread]; decide)
  obtain rfl : 97 = c := Option.some_inj.mp ((kbdView_shows htwo).read hread).1
  exact ⟨t, .snoc htwo hread, (kbd_reads_stream (.snoc htwo hread)).1⟩

/-! ## The shift keys -/

/-- A shift key is held. -/
def shiftHeld (scanned : List UInt8) : Bool := heldAfter lShift scanned || heldAfter rShift scanned

/-- The scan code is that of the release of one shift key while the other one is held. -/
def ReleasesOne (scanned : List UInt8) (code : UInt8) : Prop :=
  isRelease code = true ∧ (scanKey code = lShift ∧ heldAfter rShift scanned = true ∨
    scanKey code = rShift ∧ heldAfter lShift scanned = true)

instance (scanned : List UInt8) (code : UInt8) : Decidable (ReleasesOne scanned code) :=
  inferInstanceAs (Decidable (_ ∧ _))

/-- One more scan code, while the flag was right. -/
theorem shiftAfter_concat_iff {scanned : List UInt8} (h : shiftAfter scanned = shiftHeld scanned) :
    shiftAfter (scanned ++ [code]) = shiftHeld (scanned ++ [code]) ↔ ¬ ReleasesOne scanned code := by
  have hne : lShift ≠ rShift := by decide
  simp only [shiftAfter, shiftHeld, heldAfter, pressedLast_concat, ReleasesOne] at h ⊢
  by_cases hleft : scanKey code = lShift
  · cases hrelease : isRelease code <;> simp [isShift, hleft, hne]
  · by_cases hright : scanKey code = rShift
    · cases hrelease : isRelease code <;> simp [isShift, hright, hne.symm]
    · simp [isShift, hleft, hright, h]

/-- The flag of the handler says that a shift key is held, throughout a run, exactly if no shift key is released
while the other one is held. -/
theorem kbd_shift_iff_held {mem : Memory} {events : List KbdEvent} (hrun : Run KbdStep (ps2Init mem) events t) :
    (∀ pre u, pre <+: events → Run KbdStep (ps2Init mem) pre u →
        u.shiftDown = shiftHeld (kbdView pre).scanned) ↔
      ∀ pre code, pre ++ [.scan code] <+: events → ¬ ReleasesOne (kbdView pre).scanned code := by
  constructor
  · intro hright pre code hpre
    obtain ⟨u, hlast⟩ := hrun.of_prefix hpre
    obtain ⟨w, hfirst, -⟩ := hlast.of_concat
    have hbefore := hright pre w ((List.prefix_append _ _).trans hpre) hfirst
    have hafter := hright _ u hpre hlast
    rw [(kbdView_shows hfirst).shift] at hbefore
    rw [(kbdView_shows hlast).shift, kbdView_concat] at hafter
    exact (shiftAfter_concat_iff hbefore).mp hafter
  · intro hnone pre u hpre hfirst
    rw [(kbdView_shows hfirst).shift]
    clear hfirst
    induction pre using List.reverseRecOn with
    | nil => rfl
    | append_singleton pre event ih =>
        have hbefore := ih ((List.prefix_append _ _).trans hpre)
        rw [kbdView_concat]
        cases event with
        | scan code => exact (shiftAfter_concat_iff hbefore).mpr (hnone pre code hpre)
        | read c => exact hbefore

/-- Both shift keys are pressed and the left one is released: the flag is wrong. -/
theorem kbd_shift_lost : ∃ t, Run KbdStep (ps2Init fun _ => 0) [.scan 42, .scan 54, .scan 170] t ∧
    ¬ ∀ pre u, pre <+: [.scan 42, .scan 54, .scan 170] → Run KbdStep (ps2Init fun _ => 0) pre u →
        u.shiftDown = shiftHeld (kbdView pre).scanned := by
  have hrun : Run KbdStep (ps2Init fun _ => 0) ([.scan 42] ++ [.scan 54] ++ [.scan 170]) (ps2Init fun _ => 0) :=
    .snoc (.snoc (.snoc .nil (.scan (t := ⟨true, (ps2Init fun _ => 0).pipe⟩) rfl)) (.scan rfl)) (.scan rfl)
  refine ⟨_, hrun, fun hright => ?_⟩
  exact (kbd_shift_iff_held hrun).mp hright [.scan 42, .scan 54] 170 List.prefix_rfl (by decide)

/-! ## The terminal without further keys -/

/-- The loop needs one more character when the fold does. -/
theorem ttyReadLoop_eq_none {size : Nat} {text stream : List UInt8} {buf : Memory} {s : TtyLoop}
    (h : s.Holds size buf text) (hc : s.c ≠ newline) (hline : readLine size text stream = none) :
    ttyReadLoop size s stream = none := by
  induction stream generalizing s text with
  | nil =>
      rw [readLine] at hline
      split at hline
      case isTrue hroom => rw [ttyReadLoop, if_pos ⟨hc, h.index ▸ hroom⟩]
      case isFalse => cases hline
  | cons ch stream ih =>
      rw [readLine] at hline
      rw [ttyReadLoop]
      split at hline
      case isFalse => cases hline
      case isTrue hroom =>
          have hnext : { s with c := ch : TtyLoop }.Holds size buf text :=
            ⟨h.index, h.fits, h.bytes, h.frame, h.echo⟩
          rw [← h.index] at hroom
          rw [if_pos ⟨hc, hroom⟩]
          split at hline
          case isTrue => cases hline
          case isFalse hch =>
              simp only [if_neg hch]
              by_cases hback : ch = backspace
              · obtain ⟨s', herase, hc', hholds⟩ := hnext.erase
                rw [hback] at hline
                simp only [if_pos hback, herase, Option.bind_some]
                exact ih hholds (hc' ▸ hch) hline
              · obtain ⟨s', hput, hc', hholds⟩ := hnext.put hroom hback
                simp only [if_neg hback, hput, Option.bind_some]
                exact ih hholds (hc' ▸ hch) hline

/-- The terminal returns just on the streams that end a line. -/
theorem ttyRead_isSome_iff {file : TtyFile} {size : Nat} {buf : Memory} {stream : List UInt8}
    (hkbd : file.f_private = true) (hmode : file.f_mode &&& oWronly = 0) :
    (ttyRead (some file) size (some buf) stream).isSome ↔ EndsLine size stream := by
  have hstart : (⟨0, 0, buf, []⟩ : TtyLoop).Holds size buf [] :=
    ⟨rfl, Nat.zero_le size, rfl, fun x _ => rfl, rfl⟩
  have hc : (0 : UInt8) ≠ newline := by decide
  rw [ttyRead, if_neg (by simp [hkbd]), if_neg (not_not_intro hmode), Option.isSome_map]
  refine Iff.trans ?_ (@readLine_isSome_iff size [] stream)
  cases hline : readLine size [] stream with
  | none => simp [ttyReadLoop_eq_none hstart hc hline]
  | some line =>
      obtain ⟨text, ended, rest⟩ := line
      obtain ⟨s', hloop, -⟩ := ttyReadLoop_eq hstart hc hline
      simp [hloop]

theorem EndsLine.mono {size : Nat} {stream stream' : List UInt8} (h : EndsLine size stream)
    (hpre : stream <+: stream') : EndsLine size stream' :=
  h.imp (fun hmem => hpre.subset hmem) fun ⟨chars, hchars, hsize⟩ => ⟨chars, hchars.trans hpre, hsize⟩

theorem foldl_lineEdit_replicate (hc : c ≠ backspace) (text : List UInt8) (n : Nat) :
    (List.replicate n c).foldl lineEdit text = text ++ List.replicate n c := by
  induction n generalizing text with
  | zero => simp
  | succ n ih => simp [List.replicate_succ, ih, lineEdit_of_ne hc]

theorem length_foldl_lineEdit_backspaces (text : List UInt8) (n : Nat) :
    ((List.replicate n backspace).foldl lineEdit text).length ≤ text.length := by
  induction n generalizing text with
  | zero => simp
  | succ n ih =>
      rw [List.replicate_succ, List.foldl_cons, lineEdit_backspace]
      exact (ih _).trans (by simp)

/-- A character that comes again and again fills every line. -/
theorem endsLine_replicate {size : Nat} (hc : c ≠ backspace) (stream : List UInt8) :
    EndsLine size (stream ++ List.replicate size c) := by
  refine .inr ⟨_, List.prefix_rfl, ?_⟩
  rw [spell, List.foldl_append, foldl_lineEdit_replicate hc, List.length_append, List.length_replicate]
  exact Nat.le_add_left _ _

/-- Backspaces end no line. -/
theorem endsLine_backspaces {size n : Nat} {stream : List UInt8}
    (h : EndsLine size (stream ++ List.replicate n backspace)) : EndsLine size stream := by
  rcases h with hmem | ⟨chars, hchars, hsize⟩
  · rcases List.mem_append.mp hmem with hmem | hmem
    · exact .inl hmem
    · exact absurd (List.eq_of_mem_replicate hmem) (by decide)
  · rcases List.prefix_or_prefix_of_prefix hchars (List.prefix_append _ _) with hfront | ⟨back, rfl⟩
    · exact .inr ⟨chars, hfront, hsize⟩
    · have hback := (List.prefix_append_right_inj stream).mp hchars
      obtain ⟨k, rfl⟩ : ∃ k, back = List.replicate k backspace :=
        ⟨_, (List.prefix_replicate_iff.mp hback).2⟩
      rw [spell, List.foldl_append] at hsize
      exact .inr ⟨stream, List.prefix_rfl, hsize.trans (length_foldl_lineEdit_backspaces _ _)⟩

/-- Reads that leave characters behind send the last one once more each. -/
theorem foldl_reads {v : KbdView} (hlast : v.stream.getLast? = some c) (hmore : v.reads + 1 < v.stream.length)
    (stream : List UInt8) :
    (stream.map KbdEvent.read).foldl KbdView.event v =
      { v with
        stream := v.stream ++ List.replicate stream.length c
        reads := v.reads + stream.length } := by
  induction stream generalizing v with
  | nil => simp
  | cons d stream ih =>
      have hnext : v.event (.read d) = { v with stream := v.stream ++ [c], reads := v.reads + 1 } := by
        simp [KbdView.event, hmore, hlast]
      rw [List.map_cons, List.foldl_cons, hnext, ih (by simp) (by simpa using hmore)]
      simp [List.replicate_succ, Nat.add_assoc, Nat.add_comm 1]

/-- Reads that leave nothing behind send nothing. -/
theorem foldl_reads_last {v : KbdView} (hfew : v.stream.length ≤ v.reads + 1) (stream : List UInt8) :
    (stream.map KbdEvent.read).foldl KbdView.event v = { v with reads := v.reads + stream.length } := by
  induction stream generalizing v with
  | nil => simp
  | cons d stream ih =>
      have hnext : v.event (.read d) = { v with reads := v.reads + 1 } := by
        simp [KbdView.event, Nat.not_lt.mpr hfew]
      rw [List.map_cons, List.foldl_cons, hnext, ih (by dsimp only; omega)]
      simp [Nat.add_assoc, Nat.add_comm 1]

@[simp]
theorem charsRead_reads (stream : List UInt8) : charsRead (stream.map .read) = stream := by
  induction stream with
  | nil => rfl
  | cons c stream ih => simpa [charsRead] using ih

section Delivered

variable {v : KbdView} {stream : List UInt8}

/-- Of two characters or more, the last one is read again and again. -/
theorem reads_of_many (h : v.Shows s) (hmany : 2 ≤ s.unread.length) (hlast : s.unread.getLast? = some c)
    (hrun : Run KbdStep s (stream.map .read) t) :
    stream <+: s.unread ++ List.replicate stream.length c := by
  rw [h.unread] at hmany hlast ⊢
  rw [List.length_drop] at hmany
  have hreads := h.reads
  rw [List.getLast?_drop, if_neg (by omega)] at hlast
  have hread := (h.run hrun).2
  rw [foldl_reads hlast (by omega), charsRead_reads] at hread
  have hsplit : v.stream ++ List.replicate stream.length c =
      v.stream.take v.reads ++ (v.stream.drop v.reads ++ List.replicate stream.length c) := by
    rw [← List.append_assoc, List.take_append_drop]
  dsimp only at hread
  rw [hsplit] at hread
  rw [← List.prefix_append_right_inj (v.stream.take v.reads), ← hread]
  exact List.take_prefix _ _

/-- One character is read once. -/
theorem reads_of_few (h : v.Shows s) (hfew : s.unread.length ≤ 1) (hrun : Run KbdStep s (stream.map .read) t) :
    stream <+: s.unread := by
  rw [h.unread] at hfew ⊢
  rw [List.length_drop] at hfew
  have hread := (h.run hrun).2
  rw [foldl_reads_last (by omega), charsRead_reads] at hread
  rw [← List.prefix_append_right_inj (v.stream.take v.reads), ← hread, List.take_append_drop]
  exact List.take_prefix _ _

/-- Two characters or more are read as often as one likes, without another key. -/
theorem reads_exist_of_many (h : v.Shows s) (hmany : 2 ≤ s.unread.length) (n : Nat) :
    ∃ (stream : List UInt8) (t : Kbd), stream.length = n ∧ Run KbdStep s (stream.map .read) t := by
  induction n with
  | zero => exact ⟨[], s, rfl, .nil⟩
  | succ n ih =>
      obtain ⟨stream, t, hlength, hrun⟩ := ih
      have hshows := (h.run hrun).1
      have hreads := h.reads
      rw [h.unread, List.length_drop] at hmany
      obtain ⟨c, hlast⟩ : ∃ c, v.stream.getLast? = some c := by
        rw [← Option.isSome_iff_exists, List.getLast?_isSome, ← List.length_pos_iff]
        omega
      rw [foldl_reads hlast (by omega)] at hshows
      have hunread : t.unread ≠ [] := by
        rw [hshows.unread, ← List.length_pos_iff, List.length_drop]
        simp only [List.length_append, List.length_replicate]
        omega
      obtain ⟨d, u, hstep⟩ := (read_returns_iff hshows).mpr hunread
      refine ⟨stream ++ [d], u, by simp [hlength], ?_⟩
      rw [List.map_append]
      exact .snoc hrun hstep

/-- All characters that are unread can be read. -/
theorem reads_exist (h : v.Shows s) : ∃ t, Run KbdStep s (s.unread.map .read) t := by
  by_cases hmany : 2 ≤ s.unread.length
  · obtain ⟨stream, t, hlength, hrun⟩ := reads_exist_of_many h hmany s.unread.length
    obtain ⟨c, hlast⟩ : ∃ c, s.unread.getLast? = some c := by
      rw [← Option.isSome_iff_exists, List.getLast?_isSome, ← List.length_pos_iff]
      omega
    have hall := List.prefix_of_prefix_length_le (reads_of_many h hmany hlast hrun) (List.prefix_append _ _)
      (le_of_eq hlength)
    rw [hall.eq_of_length hlength] at hrun
    exact ⟨t, hrun⟩
  · by_cases hnone : s.unread = []
    · rw [hnone]
      exact ⟨s, .nil⟩
    · obtain ⟨c, t, hstep⟩ := (read_returns_iff h).mpr hnone
      have hrun : Run KbdStep s ([c].map .read) t := .snoc .nil hstep
      have hall := reads_of_few h (by omega) hrun
      rw [hall.eq_of_length (by have := hall.length_le; simp at this ⊢; omega)] at hrun
      exact ⟨t, hrun⟩

end Delivered

/-- After any run of interrupts and reads, a read of a line from the terminal returns without another key exactly
if the unread characters end the line, or there are at least two and the last one is not a backspace. -/
theorem tty_returns_without_key_iff {mem : Memory} {events : List KbdEvent}
    (hrun : Run KbdStep (ps2Init mem) events s) {file : TtyFile} (size : Nat) (buf : Memory)
    (hkbd : file.f_private = true) (hmode : file.f_mode &&& oWronly = 0) :
    (∃ stream t, Run KbdStep s (stream.map .read) t ∧ (ttyRead (some file) size (some buf) stream).isSome) ↔
      EndsLine size s.unread ∨ 2 ≤ s.unread.length ∧ s.unread.getLast? ≠ some backspace := by
  have h := kbdView_shows hrun
  simp only [ttyRead_isSome_iff hkbd hmode]
  constructor
  · rintro ⟨stream, t, hreads, hline⟩
    by_cases hmany : 2 ≤ s.unread.length
    · by_cases hlast : s.unread.getLast? = some backspace
      · exact .inl (endsLine_backspaces (hline.mono (reads_of_many h hmany hlast hreads)))
      · exact .inr ⟨hmany, hlast⟩
    · exact .inl (hline.mono (reads_of_few h (by omega) hreads))
  · rintro (hline | ⟨hmany, hlast⟩)
    · obtain ⟨t, hreads⟩ := reads_exist h
      exact ⟨s.unread, t, hreads, hline⟩
    · obtain ⟨c, hc⟩ : ∃ c, s.unread.getLast? = some c := by
        rw [← Option.isSome_iff_exists, List.getLast?_isSome, ← List.length_pos_iff]
        omega
      obtain ⟨stream, t, hlength, hreads⟩ := reads_exist_of_many h hmany (s.unread.length + size)
      refine ⟨stream, t, hreads, (endsLine_replicate (fun hback => hlast (hback ▸ hc)) s.unread).mono ?_⟩
      -- what was read is all of the unread characters, and then the last one `size` times
      have hall := reads_of_many h hmany hc hreads
      refine List.prefix_of_prefix_length_le ?_ hall (by simp [hlength])
      rw [hlength, Nat.add_comm, List.replicate_add, ← List.append_assoc]
      exact List.prefix_append _ _

/-- Two keys were pressed: a read of a long line returns without a newline. -/
theorem tty_returns_after_two : ∃ s, Run KbdStep (ps2Init fun _ => 0) [.scan 30, .scan 31] s ∧
    ∃ stream t, Run KbdStep s (stream.map .read) t ∧
      (ttyRead (some ⟨true, 2⟩) 100 (some fun _ => 0) stream).isSome := by
  obtain ⟨u, htwo⟩ := run_two_keys
  refine ⟨u, htwo, (tty_returns_without_key_iff htwo 100 _ rfl (by decide)).mpr (.inr ?_)⟩
  rw [(kbdView_shows htwo).unread]
  decide

end Steps

end Drivers
end Micael
