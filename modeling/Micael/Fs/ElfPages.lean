import Mathlib.Tactic
import Micael.Arch.BootDirectory
import Micael.Fs.BinfmtElf
import Micael.Fs.RamReads

/-!
# The pages of the ELF loader

`binfmt_elf_loader` takes one page from the allocator, reads the whole file to it, and calls the loader for
the class of the executable.  It computes how many pages the file needs and does not use the number.  None
of its exits gives the page back: a read that fails, a class that is unknown, and a header that the loader
refuses.

The memory of the kernel holds the file and the page.  A loader that does not return enters the program or
stops the kernel.

Main results:

- Theorem {lit}`elfLoader_returns_iff`: the executables that the loaders refuse.
- Theorem {lit}`elfRead_spec`: what the read of the file leaves behind.
- Theorem {lit}`binfmt_elf_own_memory_iff`: when only the page is written and no page is lost.
-/

namespace Micael
namespace Fs

open Foundation Kernel Toolchain Arch Mm

/-! ## The two loaders -/

/-- `EI_CLASS`. -/
def eiClass : Nat := 4

/-- `ELFCLASS32`. -/
def elfclass32 : UInt8 := 1

/-- `ELFCLASS64`. -/
def elfclass64 : UInt8 := 2

/-- `EM_386`. -/
def em386 : Nat := 3

/-- The fields of `Elf32_Ehdr` that the loader reads. -/
def readEhdr32 (image : Memory) (a : Nat) : Elf64Ehdr where
  eIdent := image.bytes a 16
  eType := image.load (a + 16) 2
  eMachine := image.load (a + 18) 2
  eEntry := image.load (a + 24) 4
  ePhoff := image.load (a + 28) 4
  ePhentsize := image.load (a + 42) 2

/-- The fields of `Elf32_Phdr` that the loader reads. -/
def readPhdr32 (image : Memory) (a : Nat) : Elf64Phdr where
  pType := image.load a 4
  pFlags := image.load (a + 24) 4
  pOffset := image.load (a + 4) 4
  pVaddr := image.load (a + 8) 4
  pFilesz := image.load (a + 16) 4

/-- `__loader_32`; no result is a return of `false`. -/
def loader32 (image : Memory) (addr pml4 : Nat) (vm : Vm) : Except Halt (Option Userland) :=
  let ehdr := readEhdr32 image addr
  let phdr := readPhdr32 image (u64 (addr + ehdr.ePhoff))
  if ¬ checkCommonElfHeader ehdr then .ok none
  else if ehdr.eMachine ≠ em386 then .ok none
  else
    let loaded :=
      if phdr.pType = ptLoad then
        (loadLoop pml4 (segmentOf image addr ehdr phdr) vm.avail.length
          { vm := vm, vStart := phdr.pVaddr / pageSize * pageSize, nwritten := 0, written := [] }).map
          LoadState.vm
      else .ok vm
    loaded >>= fun vm =>
      mmuPageAlloc vm >>= fun (page, vm) =>
        (mapPage vm pml4 (page * 4096) (userStackStart - pageSize)
          (mmPresent ||| mmReadwrite ||| mmUser)).map fun vm =>
            some ⟨vm, ehdr.eEntry, userStackStart - 4⟩

/-- The loader for the class of the executable at `addr`. -/
def elfLoader (image : Memory) (addr pml4 : Nat) (vm : Vm) : Except Halt (Option Userland) :=
  if image (addr + eiClass) = elfclass32 then loader32 image addr pml4 vm
  else if image (addr + eiClass) = elfclass64 then loader64 image addr pml4 vm
  else .ok none

/-- The machine for a class of executables. -/
def classMachine (c : UInt8) : Option Nat :=
  if c = elfclass32 then some em386 else if c = elfclass64 then some emX8664 else none

/-- An executable that one of the loaders does not refuse. -/
def Accepted (image : Memory) (addr : Nat) : Prop :=
  checkCommonElfHeader (readEhdr image addr) = true ∧
    classMachine (image (addr + eiClass)) = some (readEhdr image addr).eMachine

section Loaders

variable {image : Memory} {addr pml4 : Nat} {vm : Vm}

theorem bind_ne_ok {α β : Type} {x : Except Halt α} {f : α → Except Halt β} {b : β}
    (h : ∀ a, f a ≠ .ok b) : x >>= f ≠ .ok b := by
  intro heq
  obtain ⟨a, -, ha⟩ := Halt.bind_eq_ok.mp heq
  exact h a ha

theorem map_some_ne {α β : Type} (x : Except Halt α) (f : α → β) :
    (x.map fun a => some (f a)) ≠ .ok none := by
  intro heq
  obtain ⟨a, -, ha⟩ := Halt.map_eq_ok.mp heq
  cases ha

theorem loader32_returns_iff :
    loader32 image addr pml4 vm = .ok none ↔
      ¬ (checkCommonElfHeader (readEhdr image addr) = true ∧ (readEhdr image addr).eMachine = em386) := by
  have hcheck : checkCommonElfHeader (readEhdr32 image addr) =
      checkCommonElfHeader (readEhdr image addr) := by
    -- The check reads the fields that have the same places in both classes.
    unfold checkCommonElfHeader
    rfl
  have hmachine : (readEhdr32 image addr).eMachine = (readEhdr image addr).eMachine := rfl
  rw [loader32, hcheck, hmachine]
  by_cases hheader : checkCommonElfHeader (readEhdr image addr) = true
  · rw [if_neg (not_not.mpr hheader)]
    by_cases hm : (readEhdr image addr).eMachine = em386
    · rw [if_neg (not_not.mpr hm)]
      refine iff_of_false ?_ (not_not.mpr ⟨hheader, hm⟩)
      exact bind_ne_ok fun _ => bind_ne_ok fun _ => map_some_ne _ _
    · rw [if_pos hm]
      exact iff_of_true rfl fun h => hm h.2
  · rw [if_pos hheader]
    exact iff_of_true rfl fun h => hheader h.1

theorem loader64_returns_iff :
    loader64 image addr pml4 vm = .ok none ↔
      ¬ (checkCommonElfHeader (readEhdr image addr) = true ∧
        (readEhdr image addr).eMachine = emX8664) := by
  rw [loader64]
  by_cases hheader : checkCommonElfHeader (readEhdr image addr) = true
  · rw [if_neg (not_not.mpr hheader)]
    by_cases hm : (readEhdr image addr).eMachine = emX8664
    · rw [if_neg (not_not.mpr hm)]
      refine iff_of_false ?_ (not_not.mpr ⟨hheader, hm⟩)
      exact bind_ne_ok fun _ => bind_ne_ok fun _ => map_some_ne _ _
    · rw [if_pos hm]
      exact iff_of_true rfl fun h => hm h.2
  · rw [if_pos hheader]
    exact iff_of_true rfl fun h => hheader h.1

/-- The loaders return for the executables that they refuse, whatever pages there are. -/
theorem elfLoader_returns_iff : elfLoader image addr pml4 vm = .ok none ↔ ¬ Accepted image addr := by
  rw [elfLoader, Accepted, classMachine]
  by_cases h32 : image (addr + eiClass) = elfclass32
  · rw [if_pos h32, if_pos h32, loader32_returns_iff, Option.some.injEq, eq_comm (a := em386)]
  · rw [if_neg h32, if_neg h32]
    by_cases h64 : image (addr + eiClass) = elfclass64
    · rw [if_pos h64, if_pos h64, loader64_returns_iff, Option.some.injEq, eq_comm (a := emX8664)]
    · rw [if_neg h64, if_neg h64]
      refine iff_of_true rfl ?_
      rintro ⟨-, hnone⟩
      cases hnone

end Loaders

/-! ## The read -/

/-- What the first half of `binfmt_elf_loader` leaves: the page, the pages of the allocator, the memory of
the kernel, how many bytes were written from the page on, and what `file_read` returned. -/
structure ElfRead where
  page : Nat
  vm : Vm
  mem : Memory
  written : Nat
  ret : Int

/-- `mem` of a page: its address for the kernel. -/
def pageBuffer (page : Nat) : Nat := amd64PToV (page * 4096)

/-- `fsize`: the size is an `int`. -/
def RamFile.fsize (file : RamFile) : Nat := (file.size % 2 ^ 64).toNat

/-- Memory from `addr` on. -/
def bufferAt (mem : Memory) (addr : Nat) : Memory := fun i => mem (addr + i)

/-- Memory whose bytes from `addr` on are replaced. -/
def withBuffer (mem : Memory) (addr : Nat) (buf : Memory) : Memory := fun x =>
  if addr ≤ x then buf (x - addr) else mem x

/-- The page as a buffer; one at 0 is null. -/
def pageAsBuffer (mem : Memory) (page : Nat) : Option Memory :=
  if pageBuffer page = 0 then none else some (bufferAt mem (pageBuffer page))

/-- What a read to a page leaves behind: nothing when it fails. -/
def ElfRead.after (mem : Memory) (page : Nat) (vm : Vm) :
    Except Errno (Nat × RamFile × Memory) → ElfRead
  | .error e => ⟨page, vm, mem, 0, -e.toInt⟩
  | .ok (count, _, buf) => ⟨page, vm, withBuffer mem (pageBuffer page) buf, count, ssizeOfInt count⟩

/-- `file_read` of the whole file to a page. -/
def readToPage (mem : Memory) (file : RamFile) (page : Nat) (vm : Vm) : ElfRead :=
  .after mem page vm (initramfsFileRead mem (some file) 0 file.fsize (pageAsBuffer mem page))

/-- `binfmt_elf_loader` up to the check of what `file_read` returns. -/
def elfRead (mem : Memory) (file : RamFile) (vm : Vm) : Except Halt ElfRead :=
  (mmuPageAlloc vm).map fun (page, vm) => readToPage mem file page vm

/-- How `binfmt_elf_loader` ends when the kernel does not stop: the program has been entered, or it returns
`false` with these pages at the allocator. -/
inductive ElfExit
  | entered (program : Userland)
  | returned (vm : Vm)

/-- `binfmt_elf_loader`. -/
def binfmtElfLoader (mem : Memory) (file : RamFile) (pml4 : Nat) (vm : Vm) : Except Halt ElfExit :=
  elfRead mem file vm >>= fun read =>
    if read.ret < 0 then .ok (.returned read.vm)
    else
      (elfLoader read.mem (pageBuffer read.page) pml4 read.vm).map fun
        | some program => .entered program
        | none => .returned read.vm

/-! ## What is promised of the pages -/

/-- The read writes to the page only, and when the loader returns, the allocator has every page again:
those it is going to return and those it was given back. -/
structure OwnMemory (mem : Memory) (file : RamFile) (pml4 : Nat) (vm : Vm) : Prop where
  inside : ∀ read, elfRead mem file vm = .ok read → ∀ i < read.written, ∃ j < pageSize,
    u64 (pageBuffer read.page + i) = u64 (pageBuffer read.page + j)
  returned : ∀ vm', binfmtElfLoader mem file pml4 vm = .ok (.returned vm') →
    (vm'.avail ++ vm'.freed).Perm (vm.avail ++ vm.freed)

/-- An open file of this size at a position; its header is at {lit}`pstart`. -/
def ramFileAt (pos : Int64) (size : UInt32) (pstart : Nat) : RamFile :=
  ⟨pos.toInt, intOfU32 size.toNat, pstart⟩

/-- Memory with the file at `addr`. -/
def fileCopied (mem : Memory) (addr pstart size : Nat) : Memory := fun x =>
  if addr ≤ x ∧ x < addr + size then mem (pstart + fileHeaderSize + (x - addr)) else mem x

/-- A file that was not read before, of at most a page, and in it an executable that a loader accepts. -/
def OnePageExecutable (mem : Memory) (file : RamFile) (size addr : Nat) : Prop :=
  addr ≠ 0 ∧ file.pos = 0 ∧ size ≤ pageSize ∧ Accepted (fileCopied mem addr file.pstart size) addr

/-! ## The read of a file -/

section Read

variable {mem : Memory} {page pstart : Nat} {rest : List Nat} {vm : Vm} {size : UInt32} {file : RamFile}

theorem RamFile.fsize_small (hsize : file.size = intOfU32 size.toNat) (h : size.toNat < 2 ^ 31) :
    file.fsize = size.toNat := by
  rw [RamFile.fsize, hsize, intOfU32_small h]
  omega

theorem RamFile.fsize_large (hsize : file.size = intOfU32 size.toNat) (h : 2 ^ 31 ≤ size.toNat) :
    file.fsize = 2 ^ 64 - 2 ^ 32 + size.toNat := by
  have hlt := size.toNat_lt
  rw [RamFile.fsize, hsize, intOfU32_large h]
  omega

theorem RamFile.fsize_lt (file : RamFile) : file.fsize < 2 ^ 64 := by
  rw [RamFile.fsize]
  omega

/-- A read of the whole file is refused behind every position inside the file but its start. -/
theorem readRefused_fsize_iff (hsize : file.size = intOfU32 size.toNat) (hin : file.Inside size) :
    ReadRefused size file.pos file.fsize ↔ file.pos ≠ 0 := by
  have hlt := size.toNat_lt
  have hlow := hin.pos_nonneg
  have hhigh := hin.pos_le
  rw [readRefused_iff ⟨hlow, hhigh⟩ file.fsize_lt]
  by_cases hsmall : size.toNat < 2 ^ 31
  · rw [if_pos hsmall, file.fsize_small hsize hsmall]
    omega
  · rw [if_neg hsmall, file.fsize_large hsize (by omega)]
    omega

/-- A seek by 0 leaves the file as it is, from a position inside it, and else is refused. -/
theorem RamFile.seek_zero (hsize : file.size = intOfU32 size.toNat) (hlow : -2 ^ 63 ≤ file.pos)
    (hhigh : file.pos < 2 ^ 63) :
    file.Inside size ∧ file.seek 0 = .ok file ∨ file.pos ≠ 0 ∧ file.seek 0 = .error .espipe := by
  have hneg : ssizeOfInt (-0) = 0 := by decide
  have hmod : file.size % 2 ^ 32 = size.toNat := by
    rw [hsize, intOfU32_mod]
  rw [RamFile.seek, hneg, Int.add_zero, ssizeOfInt_eq hlow hhigh, hmod]
  by_cases hin : file.pos < 0 ∨ (size.toNat : Int) < file.pos
  · rw [if_pos hin]
    exact .inr ⟨by omega, rfl⟩
  · rw [if_neg hin]
    exact .inl ⟨⟨hsize, by omega, by omega⟩, rfl⟩

/-- A read of the whole file into a buffer: from its start all of it, and else none. -/
theorem initramfsFileRead_fsize (hsize : file.size = intOfU32 size.toNat) (hlow : -2 ^ 63 ≤ file.pos)
    (hhigh : file.pos < 2 ^ 63) (mem dst : Memory) :
    file.pos = 0 ∧ initramfsFileRead mem (some file) 0 file.fsize (some dst) =
        .ok (file.fsize, file, kmemcpy dst 0 mem (file.pstart + fileHeaderSize) file.fsize) ∨
      file.pos ≠ 0 ∧ ∃ e, initramfsFileRead mem (some file) 0 file.fsize (some dst) = .error e := by
  rcases file.seek_zero hsize hlow hhigh with ⟨hin, hseek⟩ | ⟨hpos, hseek⟩
  · have hrefused := readRefused_fsize_iff hsize hin
    rcases initramfsFileRead_seek_ok hsize hseek mem dst file.fsize with
      ⟨hno, hread⟩ | ⟨hyes, hread⟩
    · exact .inr ⟨hrefused.mp hno, _, hread⟩
    · have hzero : file.pos = 0 := not_not.mp (mt hrefused.mpr hyes)
      have hstart : file.pos.toNat = 0 := by omega
      rw [hstart, Nat.add_zero] at hread
      exact .inl ⟨hzero, hread⟩
  · exact .inr ⟨hpos, _, initramfsFileRead_seek_error hseek mem dst⟩

/-- The file in the buffer. -/
theorem withBuffer_kmemcpy (mem : Memory) (addr pstart size : Nat) :
    withBuffer mem addr (kmemcpy (bufferAt mem addr) 0 mem (pstart + fileHeaderSize) size) =
      fileCopied mem addr pstart size := by
  funext x
  rw [withBuffer, fileCopied, kmemcpy_apply, Nat.zero_add, Nat.sub_zero, bufferAt]
  by_cases hx : addr ≤ x
  · rw [if_pos hx, Nat.add_sub_cancel' hx]
    refine if_congr ?_ rfl rfl
    omega
  · rw [if_neg hx, if_neg fun h => hx h.1]

/-- What the read leaves behind: it fails, and nothing was written; or the file is in the buffer. -/
theorem readToPage_spec (hsize : file.size = intOfU32 size.toNat) (hlow : -2 ^ 63 ≤ file.pos)
    (hhigh : file.pos < 2 ^ 63) (mem : Memory) (page : Nat) (vm : Vm) :
    ((pageBuffer page = 0 ∨ file.pos ≠ 0) ∧ ∃ ret < 0,
        readToPage mem file page vm = ⟨page, vm, mem, 0, ret⟩) ∨
      (pageBuffer page ≠ 0 ∧ file.pos = 0) ∧
        readToPage mem file page vm = ⟨page, vm,
          fileCopied mem (pageBuffer page) file.pstart file.fsize, file.fsize,
          ssizeOfInt file.fsize⟩ := by
  rw [readToPage]
  by_cases hnull : pageBuffer page = 0
  · rw [pageAsBuffer, if_pos hnull]
    have hneg := Errno.einval.toInt_pos
    exact .inl ⟨.inl hnull, -Errno.einval.toInt, by omega, rfl⟩
  · rw [pageAsBuffer, if_neg hnull]
    rcases initramfsFileRead_fsize hsize hlow hhigh mem (bufferAt mem (pageBuffer page)) with
      ⟨hzero, hread⟩ | ⟨hpos, e, hread⟩
    · refine .inr ⟨⟨hnull, hzero⟩, ?_⟩
      rw [hread, ElfRead.after, withBuffer_kmemcpy]
    · rw [hread]
      have hneg := e.toInt_pos
      exact .inl ⟨.inr hpos, -e.toInt, by omega, rfl⟩

end Read

/-! ## When the promise is kept -/

section Own

variable {mem : Memory} {page pml4 : Nat} {rest : List Nat} {vm : Vm} {size : UInt32} {file : RamFile}

theorem elfRead_cons (havail : vm.avail = page :: rest) (mem : Memory) (file : RamFile) :
    elfRead mem file vm = .ok (readToPage mem file page { vm with avail := rest }) := by
  rw [elfRead, mmuPageAlloc, havail]
  rfl

theorem elfRead_nil (havail : vm.avail = []) (mem : Memory) (file : RamFile) :
    elfRead mem file vm = .error (.kpanic "out of memory") := by
  rw [elfRead, mmuPageAlloc, havail]
  rfl

/-- The allocator does not have the page again that it handed out. -/
theorem OwnMemory.not_returned (h : OwnMemory mem file pml4 vm) (havail : vm.avail = page :: rest) :
    binfmtElfLoader mem file pml4 vm ≠ .ok (.returned { vm with avail := rest }) := by
  intro hreturned
  have hlength := (h.returned _ hreturned).length_eq
  simp only [havail, List.length_append, List.length_cons] at hlength
  omega

/-- A read that fails returns. -/
theorem binfmtElfLoader_of_ret {read : ElfRead} (hread : elfRead mem file vm = .ok read)
    (hret : read.ret < 0) : binfmtElfLoader mem file pml4 vm = .ok (.returned read.vm) := by
  rw [binfmtElfLoader, hread, Halt.ok_bind, if_pos hret]

/-- After a read, the loader returns for what the loaders refuse. -/
theorem binfmtElfLoader_returned_iff {mem' : Memory} {vm' : Vm} {written : Nat} {ret : Int}
    (hread : elfRead mem file vm = .ok ⟨page, vm', mem', written, ret⟩) (hret : 0 ≤ ret) :
    (∃ vm'', binfmtElfLoader mem file pml4 vm = .ok (.returned vm'')) ↔
      ¬ Accepted mem' (pageBuffer page) := by
  have hneg : ¬ ret < 0 := by omega
  rw [binfmtElfLoader, hread, Halt.ok_bind, if_neg hneg, ← elfLoader_returns_iff]
  constructor
  · rintro ⟨vm'', hreturned⟩
    obtain ⟨result, hresult, hexit⟩ := Halt.map_eq_ok.mp hreturned
    cases result with
    | none => exact hresult
    | some program => cases hexit
  · intro hnone
    rw [hnone]
    exact ⟨vm', rfl⟩

/-- When the loader returns, what it leaves of the pages is what the first allocation left. -/
theorem binfmtElfLoader_returned_vm {read : ElfRead} {vm' : Vm}
    (hread : elfRead mem file vm = .ok read)
    (hreturned : binfmtElfLoader mem file pml4 vm = .ok (.returned vm')) : vm' = read.vm := by
  rw [binfmtElfLoader, hread, Halt.ok_bind] at hreturned
  split_ifs at hreturned
  · cases hreturned
    rfl
  · obtain ⟨result, hresult, hexit⟩ := Halt.map_eq_ok.mp hreturned
    cases result with
    | none =>
        cases hexit
        rfl
    | some program => cases hexit

/-- The bytes of a page. -/
theorem u64_page_iff (addr count : Nat) :
    (∀ i < count, ∃ j < pageSize, u64 (addr + i) = u64 (addr + j)) ↔ count ≤ pageSize := by
  unfold pageSize u64
  constructor
  · intro h
    by_contra hcount
    obtain ⟨j, hj, heq⟩ := h 4096 (by omega)
    omega
  · intro hcount i hi
    exact ⟨i, by omega, rfl⟩

/-- A page that is promised to hold the program holds a program that is accepted. -/
theorem OwnMemory.executable (h : OwnMemory mem file pml4 vm) (havail : vm.avail = page :: rest)
    (hsize : file.size = intOfU32 size.toNat) (hlow : -2 ^ 63 ≤ file.pos) (hhigh : file.pos < 2 ^ 63) :
    OnePageExecutable mem file size.toNat (pageBuffer page) := by
  have hread := elfRead_cons havail mem file
  have hkept := h.not_returned havail
  rcases readToPage_spec hsize hlow hhigh mem page { vm with avail := rest } with
    ⟨-, ret, hneg, hafter⟩ | ⟨⟨hnull, hzero⟩, hafter⟩
  · rw [hafter] at hread
    exact absurd (binfmtElfLoader_of_ret hread hneg) hkept
  · rw [hafter] at hread
    have hpage : file.fsize ≤ pageSize := (u64_page_iff _ _).mp (h.inside _ hread)
    have hsmall : size.toNat < 2 ^ 31 := by
      by_contra hlarge
      rw [file.fsize_large hsize (by omega)] at hpage
      unfold pageSize at hpage
      omega
    rw [file.fsize_small hsize hsmall] at hread hpage
    have hret : 0 ≤ ssizeOfInt size.toNat := by
      rw [ssizeOfInt_of_int hsmall]
      omega
    refine ⟨hnull, hzero, hpage, ?_⟩
    by_contra hrefused
    obtain ⟨vm', hreturned⟩ := (binfmtElfLoader_returned_iff hread hret).mpr hrefused
    obtain rfl := binfmtElfLoader_returned_vm hread hreturned
    exact hkept hreturned

/-- A program of a page that is accepted is entered. -/
theorem OwnMemory.of_executable (havail : vm.avail = page :: rest)
    (hsize : file.size = intOfU32 size.toNat)
    (h : OnePageExecutable mem file size.toNat (pageBuffer page)) : OwnMemory mem file pml4 vm := by
  obtain ⟨hnull, hzero, hpage, haccepted⟩ := h
  have hfive : pageSize = 4096 := rfl
  have hsmall : size.toNat < 2 ^ 31 := by omega
  have hret : 0 ≤ ssizeOfInt size.toNat := by
    rw [ssizeOfInt_of_int hsmall]
    omega
  have hread := elfRead_cons havail mem file
  rcases readToPage_spec hsize (by omega) (by omega) mem page { vm with avail := rest } with
    ⟨hfails | hfails, -⟩ | ⟨-, hafter⟩
  · exact absurd hfails hnull
  · exact absurd hzero hfails
  · rw [hafter, file.fsize_small hsize hsmall] at hread
    constructor
    case inside =>
      intro read hread'
      obtain rfl := Except.ok.inj (hread.symm.trans hread')
      exact (u64_page_iff _ _).mpr hpage
    case returned =>
      intro vm' hreturned
      have hrefused := (binfmtElfLoader_returned_iff hread hret).mp ⟨vm', hreturned⟩
      exact absurd haccepted hrefused

/-- Without a page there is no read. -/
theorem OwnMemory.of_nil (havail : vm.avail = []) : OwnMemory mem file pml4 vm where
  inside := by
    intro read hread
    rw [elfRead_nil havail] at hread
    cases hread
  returned := by
    intro vm' hreturned
    rw [binfmtElfLoader, elfRead_nil havail] at hreturned
    cases hreturned

end Own

/-- For every file of the initramfs, only the page of the loader is written and no page is lost just when
the allocator has no page, or the file is an executable of at most a page that one of the loaders accepts,
and it was not read before. -/
theorem binfmt_elf_own_memory_iff (mem : Memory) (pos : Int64) (size : UInt32) (pstart pml4 : Nat)
    (vm : Vm) :
    OwnMemory mem (ramFileAt pos size pstart) pml4 vm ↔ ∀ page ∈ vm.avail.head?,
      OnePageExecutable mem (ramFileAt pos size pstart) size.toNat (pageBuffer page) := by
  have hsize : (ramFileAt pos size pstart).size = intOfU32 size.toNat := by
    simp only [ramFileAt]
  cases havail : vm.avail with
  | nil => exact iff_of_true (.of_nil havail) fun page hpage => by cases hpage
  | cons page rest =>
      constructor
      · intro h page' hpage
        obtain rfl : page = page' := Option.some.inj hpage
        exact h.executable havail hsize pos.le_toInt pos.toInt_lt
      · intro h
        exact .of_executable havail hsize (h page rfl)

/-- A file of 4097 zero bytes and one free page: the last byte is written behind the page, and the page is
lost, as no loader is for the class 0. -/
theorem two_page_file_overflows :
    (∃ read, elfRead (fun _ => 0) ⟨0, 4097, 0⟩ ⟨fun _ _ => 0, [1], []⟩ = .ok read ∧
      read.written = 4097) ∧
      ¬ OwnMemory (fun _ => 0) ⟨0, 4097, 0⟩ 0 ⟨fun _ _ => 0, [1], []⟩ := by
  have hpos : pageBuffer 1 ≠ 0 := by decide
  have hsize : RamFile.size ⟨0, 4097, 0⟩ = intOfU32 (4097 : UInt32).toNat := by
    rw [intOfU32_small (by decide)]
    rfl
  have hread : elfRead (fun _ => 0) ⟨0, 4097, 0⟩ ⟨fun _ _ => 0, [1], []⟩ =
      .ok (readToPage (fun _ => 0) ⟨0, 4097, 0⟩ 1 ⟨fun _ _ => 0, [], []⟩) :=
    elfRead_cons rfl (fun _ => 0) ⟨0, 4097, 0⟩
  rcases readToPage_spec hsize (by norm_num) (by norm_num) (fun _ => 0) 1
    ⟨fun _ _ => 0, [], []⟩ with ⟨hfails | hfails, -⟩ | ⟨-, hafter⟩
  · exact absurd hfails hpos
  · exact absurd rfl hfails
  · rw [hafter] at hread
    have hfsize : RamFile.fsize ⟨0, 4097, 0⟩ = 4097 := RamFile.fsize_small hsize (by decide)
    constructor
    · exact ⟨_, hread, hfsize⟩
    intro h
    have hpage : RamFile.fsize ⟨0, 4097, 0⟩ ≤ pageSize := (u64_page_iff _ _).mp (h.inside _ hread)
    revert hpage
    decide

end Fs
end Micael
