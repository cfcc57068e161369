import Micael.Mm.Types

/-!
# Page directories of the amd64 port

Physical memory is a function from frames and word indices to 64-bit words; a frame holds
512 words, whether it is a table or data.  An entry of a table is a frame number times
4096 plus flag bits.

The four levels of a directory are numbered from the page tables (level 0) to the PML4
(level 3), and a loop nest of the source is a recursion on the level.  Virtual addresses
are given by their page number.  The upper half of the kernel, entry 511 of a PML4, is
shared by all directories.

The page frame allocator is represented by the frames it is going to return, in order;
`mmu_page_free` logs its argument.  The TLB is left out: it is flushed after a fork, and a
fault drops the entry of the faulting page.  So are the locks.
-/

namespace Micael
namespace Arch

/-! ## Entries -/

/-- Physical memory: the words of every frame. -/
abbrev PhysMem := Nat → Nat → Nat

def mmPresent : Nat := 1
def mmReadwrite : Nat := 2
def mmUser : Nat := 4
def mm2mb : Nat := 128
def mmCow : Nat := 512

/-- An entry that points to a frame. -/
def pte (frame flags : Nat) : Nat := frame * 4096 + flags

/-- The frame of an entry, `entry & ~(PAGE_SIZE - 1)`. -/
def pteFrame (w : Nat) : Nat := w / 4096

/-- `MM_PRESENT` is set. -/
def isPresent (w : Nat) : Bool := w.testBit 0

/-- `MM_READWRITE` is set. -/
def isReadwrite (w : Nat) : Bool := w.testBit 1

/-- `MM_USER` is set. -/
def isUser (w : Nat) : Bool := w.testBit 2

/-- `MM_2MB` is set. -/
def is2mb (w : Nat) : Bool := w.testBit 7

/-- `MM_COW` is set. -/
def isCow (w : Nat) : Bool := w.testBit 9

/-- Store a word. -/
def PhysMem.set (mem : PhysMem) (f i w : Nat) : PhysMem :=
  Function.update mem f (Function.update (mem f) i w)

/-- `kmemset(frame, 0, PAGE_SIZE)`. -/
def PhysMem.zero (mem : PhysMem) (f : Nat) : PhysMem := Function.update mem f fun _ => 0

/-- The index of a page in the table of a level. -/
def tableIndex (level vpn : Nat) : Nat := vpn / 512 ^ level % 512

/-- The entries of a table that the loops over a directory visit: entry 511 of a PML4 belongs to
the kernel. -/
def entryCount (level : Nat) : Nat := if level = 3 then 511 else 512

/-- Memory, the frames that `mmu_page_alloc` is going to return, and those that were passed to
`mmu_page_free`. -/
structure Vm where
  mem : PhysMem
  avail : List Nat
  freed : List Nat

/-- `mmu_page_alloc`. -/
def mmuPageAlloc (vm : Vm) : Except Halt (Nat × Vm) :=
  match vm.avail with
  | [] => .error (.kpanic "out of memory")
  | f :: avail => .ok (f, { vm with avail := avail })

/-- `mmu_page_free`. -/
def mmuPageFree (vm : Vm) (f : Nat) : Vm := { vm with freed := vm.freed ++ [f] }

/-- `__alloc_entry`. -/
def allocEntry (vm : Vm) : Except Halt (Nat × Vm) :=
  match mmuPageAlloc vm with
  | .error e => .error e
  | .ok (f, vm) => .ok (pte f (mmPresent + mmReadwrite), { vm with mem := vm.mem.zero f })

/-- The tables that `mmu_native_init` fills for the kernel, in the frames of `__pml4`, `__pdpt` and
the two of `__pd`: the first 2 GiB in pages of 2 MiB, at 0 and at `KVSTART`. -/
def mmuNativeInit (pml4 pdpt pd pd' : Nat) (mem : PhysMem) : PhysMem := fun f =>
  if f = pml4 then fun i =>
    if i = 0 ∨ i = 511 then pte pdpt (mmPresent + mmReadwrite) else 0
  else if f = pdpt then fun i =>
    if i = 0 ∨ i = 510 then pte pd (mmPresent + mmReadwrite)
    else if i = 1 ∨ i = 511 then pte pd' (mmPresent + mmReadwrite) else 0
  else if f = pd then fun i => pte (i * 512) (mmPresent + mmReadwrite + mm2mb)
  else if f = pd' then fun i => pte ((i + 512) * 512) (mmPresent + mmReadwrite + mm2mb)
  else mem f

/-! ## Mapping -/

/-- The entry of a table on the way to a page, allocated if it is not present. -/
def ensureEntry (f i : Nat) (vm : Vm) : Except Halt Vm :=
  if isPresent (vm.mem f i) then .ok vm
  else
    match allocEntry vm with
    | .error e => .error e
    | .ok (e, vm) => .ok { vm with mem := vm.mem.set f i e }

/-- `__map_page` from the table `f` of a level on. -/
def mapTable (target vpn flags : Nat) : Nat → Nat → Vm → Except Halt Vm
  | 0, f, vm =>
      .ok { vm with mem := vm.mem.set f (tableIndex 0 vpn) (pte target (flags ||| mmPresent)) }
  | k + 1, f, vm =>
      let i := tableIndex (k + 1) vpn
      match ensureEntry f i vm with
      | .error e => .error e
      | .ok vm =>
          let vm := { vm with mem := vm.mem.set f i (vm.mem f i ||| flags) }
          mapTable target vpn flags k (pteFrame (vm.mem f i)) vm

/-- `__map_page`. -/
def mapPage (vm : Vm) (pml4 paddr vaddr flags : Nat) : Except Halt Vm :=
  if ¬ Mm.pageAligned paddr then .error .kassert
  else if ¬ Mm.pageAligned vaddr then .error .kassert
  else mapTable (paddr / 4096) (vaddr / 4096) flags 3 pml4 vm

/-- `__map_range`, with `n` pages left. -/
def mapRange (pml4 flags : Nat) : Nat → Nat → Nat → Vm → Except Halt Vm
  | 0, _, _, vm => .ok vm
  | n + 1, pstart, vstart, vm =>
      match mapPage vm pml4 pstart vstart flags with
      | .error e => .error e
      | .ok vm => mapRange pml4 flags n (pstart + Mm.pageSize) (vstart + Mm.pageSize) vm

/-- What `mmu_native_build_dir` reads: the kernel's entry 511, which `mmu_native_init` makes
writable, the addresses of the local and the I/O APIC, and the framebuffer if there is one.  The
three addresses come from 32-bit fields. -/
structure DirConfig where
  kernelEntry : Nat
  lapic : Nat
  ioapic : Nat
  vga : Option Nat
  kernelEntry_rw : isReadwrite kernelEntry = true
  lapic_lt : lapic < 2 ^ 32
  ioapic_lt : ioapic < 2 ^ 32
  vga_lt : ∀ v ∈ vga, v < 2 ^ 32

/-- `mmu_native_build_dir`: the new PML4 and memory. -/
def mmuNativeBuildDir (cfg : DirConfig) (vm : Vm) : Except Halt (Nat × Vm) := do
  let (pml4, vm) ← mmuPageAlloc vm
  let words := fun i =>
    if i < 511 then 0 else if i = 511 then cfg.kernelEntry else vm.mem pml4 i
  let vm := { vm with mem := Function.update vm.mem pml4 words }
  let vm ← mapPage vm pml4 cfg.lapic cfg.lapic (mmPresent + mmReadwrite)
  let vm ← mapPage vm pml4 cfg.ioapic cfg.ioapic (mmPresent + mmReadwrite)
  match cfg.vga with
  | none => pure (pml4, vm)
  | some vga =>
      let vm ← mapRange pml4 (mmPresent + mmReadwrite) 4096 vga vga vm
      pure (pml4, vm)

/-! ## Duplication -/

/-- The flags of a page after a fork. -/
def forkFlags : Nat := mmCow + mmPresent + mmUser

/-- Reset the flags of an entry for a fork. -/
def resetEntry (w : Nat) : Nat := pte (pteFrame w) forkFlags

/-- The innermost loop body of `mmu_native_duplicate_dir`. -/
def dupPage (o c : Nat) (mem : PhysMem) (i : Nat) : PhysMem :=
  if isPresent (mem o i) then
    let mem := mem.set o i (resetEntry (mem o i))
    mem.set c i (mem o i)
  else mem

/-- What `mmu_native_duplicate_dir` does to an entry of a page directory that maps 2 MiB. -/
def dup2mb (o c i : Nat) (mem : PhysMem) : PhysMem :=
  let mem := mem.set o i (pte (pteFrame (mem o i)) (forkFlags + mm2mb))
  mem.set c i (mem o i)

/-- The loops of `mmu_native_duplicate_dir` from the tables `o` and `c` of a level on.  A new
entry for the copy is allocated for every present entry of the original. -/
def dupTable : Nat → Nat → Nat → Vm → Except Halt Vm
  | 0, o, c, vm => .ok { vm with mem := (List.range 512).foldl (dupPage o c) vm.mem }
  | k + 1, o, c, vm =>
      (List.range (entryCount (k + 1))).foldlM (fun vm i =>
        if isPresent (vm.mem o i) then do
          let vm := if k = 0 ∧ is2mb (vm.mem o i) then
              { vm with mem := dup2mb o c i vm.mem }
            else vm
          let (e, vm) ← allocEntry vm
          let vm := { vm with mem := vm.mem.set c i (e ||| mmPresent ||| mmUser) }
          dupTable k (pteFrame (vm.mem o i)) (pteFrame (vm.mem c i)) vm
        else pure vm) vm

/-- `mmu_native_duplicate_dir` of the directory `pml4`: the copy and memory. -/
def mmuNativeDuplicateDir (cfg : DirConfig) (pml4 : Nat) (vm : Vm) : Except Halt (Nat × Vm) := do
  let (copy, vm) ← mmuNativeBuildDir cfg vm
  let vm ← dupTable 3 pml4 copy vm
  pure (copy, vm)

/-! ## Teardown -/

/-- `kmemset` and `mmu_page_free` of a frame. -/
def releaseFrame (vm : Vm) (f : Nat) : Vm := mmuPageFree { vm with mem := vm.mem.zero f } f

/-- A page that `mmu_native_destroy_dir` frees: present, a user page and not copy-on-write. -/
def isPrivate (w : Nat) : Bool := isPresent w && isUser w && !isCow w

/-- The innermost loop body of `mmu_native_destroy_dir`. -/
def destroyPage (f : Nat) (vm : Vm) (i : Nat) : Vm :=
  if isPrivate (vm.mem f i) then releaseFrame vm (pteFrame (vm.mem f i)) else vm

/-- The loops of `mmu_native_destroy_dir` from the table `f` of a level on. -/
def destroyTable : Nat → Nat → Vm → Vm
  | 0, f, vm => (List.range 512).foldl (destroyPage f) vm
  | k + 1, f, vm =>
      (List.range (entryCount (k + 1))).foldl (fun vm i =>
        if isPresent (vm.mem f i) then
          let vm := destroyTable k (pteFrame (vm.mem f i)) vm
          releaseFrame vm (pteFrame (vm.mem f i))
        else vm) vm

/-- `mmu_native_destroy_dir`. -/
def mmuNativeDestroyDir (pml4 : Nat) (vm : Vm) : Vm := mmuPageFree (destroyTable 3 pml4 vm) pml4

/-! ## Page faults -/

/-- The page table that the walk of a page arrives at, if all entries above are present. -/
def ptFrame (mem : PhysMem) : Nat → Nat → Nat → Option Nat
  | 0, f, _ => some f
  | k + 1, f, vpn =>
      if isPresent (mem f (tableIndex (k + 1) vpn)) then
        ptFrame mem k (pteFrame (mem f (tableIndex (k + 1) vpn))) vpn
      else none

/-- The frame that the processor reads for a page whose entries are present, with 2 MiB
pages. -/
def supervisorFrame (mem : PhysMem) (pml4 vpn : Nat) : Nat :=
  let pdpt := pteFrame (mem pml4 (tableIndex 3 vpn))
  let pd := pteFrame (mem pdpt (tableIndex 2 vpn))
  let pde := mem pd (tableIndex 1 vpn)
  if is2mb pde then pteFrame pde + tableIndex 0 vpn
  else pteFrame (mem (pteFrame pde) (tableIndex 0 vpn))

/-- `mmu_pf_handler` for a fault at a page of the directory `pml4`.  It takes an entry of a
page directory for the address of a page table, also if it maps 2 MiB.  A fault that is not
resolved ends in an endless loop. -/
def mmuPfHandler (pml4 vpn : Nat) (vm : Vm) : Except Halt Vm :=
  match ptFrame vm.mem 3 pml4 vpn with
  | none => .error .hang
  | some pt =>
      let w := vm.mem pt (tableIndex 0 vpn)
      if ¬ isPresent w then .error .hang
      else if isCow w ∧ ¬ isReadwrite w then
        match mmuPageAlloc vm with
        | .error e => .error e
        | .ok (copy, vm) =>
            let mem : PhysMem :=
              Function.update vm.mem copy (vm.mem (supervisorFrame vm.mem pml4 vpn))
            .ok { vm with
              mem := mem.set pt (tableIndex 0 vpn) (pte copy (mmPresent + mmUser + mmReadwrite)) }
      else .error .hang

end Arch
end Micael
