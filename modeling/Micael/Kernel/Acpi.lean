import Micael.Arch.BootDirectory
import Micael.Foundation.LastWrite
import Micael.Foundation.Loop
import Micael.Foundation.Records
import Micael.Fs.PathBytes
import Micael.Kernel.Machine

/-!
# The processors and interrupt controllers of the machine

`acpi_init` searches the memory of the firmware for a descriptor, follows it to a table of tables, and walks
over the records of the one that lists the local APICs and the I/O APICs.  Each of them is entered in a table
under its own number, and counted.  The init task starts the processors with the numbers from 1 up to the
count, and waits for each of them to register itself.

The kernel reads the tables at the addresses of the firmware, and the records at their addresses in the kernel.
Only the first 2 GiB of memory are mapped; a read anywhere else does not return.  What the ACPICA library returns
at the end is a parameter, and so is whether a processor registers itself.

Main results:

- Theorem {lit}`acpi_init_returns_iff`: when `acpi_init` comes to its end, in any memory.
- Theorem {lit}`acpi_init_registers`: what is entered in the tables, for tables of the firmware that are well
  formed.
- Theorem {lit}`Lapics.Of.complete_iff`: when the numbers up to the count are those of the processors.
- Theorem {lit}`acpi_starts_processors`: which of the other processors the init task starts.
-/

namespace Micael
namespace Kernel

open Foundation

/-! ## Local APICs and I/O APICs -/

/-- `MAX_CPU`. -/
def maxCpu : Nat := 64

/-- `MAX_IOAPIC`. -/
def maxIoapic : Nat := 20

/-- An entry of `lapics`. -/
structure LapicEntry where
  cpuId : Nat
  lapicId : Nat
deriving DecidableEq, Repr

/-- `lapics` and `cpu_count`. -/
structure Lapics where
  lapics : Nat → LapicEntry
  cpuCount : Nat

/-- An entry of `io_apic.apics`. -/
structure IoApicEntry where
  id : Nat
  base : Nat
  intrBase : Nat
deriving DecidableEq, Repr

/-- `io_apic`. -/
structure IoApics where
  numApics : Nat
  apics : Nat → IoApicEntry

/-- `lapic_register_dev`: the processor numbers of the caller are bytes. -/
def lapicRegisterDev (s : Lapics) (cpuId lapicId : Nat) : Except Halt Lapics :=
  if maxCpu ≤ cpuId then .error .kassert
  else .ok ⟨Function.update s.lapics cpuId ⟨cpuId, lapicId⟩, u32 (s.cpuCount + 1)⟩

/-- `lapic_get_lapic_id`. -/
def lapicGetLapicId (s : Lapics) (cpu : Nat) : Except Errno Nat :=
  if s.cpuCount ≤ cpu then .error .enxio else .ok (s.lapics cpu).lapicId

/-- `ioapic_register_dev`. -/
def ioapicRegisterDev (s : IoApics) (ioapicId ioapicAddr intrBase : Nat) : Except Halt IoApics :=
  if maxIoapic ≤ ioapicId then .error .kassert
  else .ok ⟨s.numApics + 1, Function.update s.apics ioapicId ⟨ioapicId, ioapicAddr, intrBase⟩⟩

/-- The upper half of the command for an interprocessor interrupt: the processor. -/
def icrHigh (s : Lapics) (cpu : Nat) : Nat := u32 ((s.lapics cpu).lapicId * 2 ^ 24) / 2 ^ 24 * 2 ^ 24

/-- `lapic_send_init`: the two halves of the command. -/
def lapicSendInit (s : Lapics) (cpu : Nat) : Nat × Nat := (icrHigh s cpu, 0x500 + 0x4000)

/-- `lapic_send_sipi`. -/
def lapicSendSipi (s : Lapics) (cpu vec : Nat) : Nat × Nat := (icrHigh s cpu, vec % 256 + 0x600 + 0x4000)

/-- The loop of `init_task_func` over the numbers of processors: the commands that it gives, and whether it comes to
its end.  After a processor was started, the loop waits until `ap_initialized` is its number; whether it comes to
be that is told by `registers`. -/
def initTaskLoop (s : Lapics) (registers : Nat → Bool) : List Nat → List (Nat × Nat) × Bool
  | [] => ([], true)
  | i :: cpus =>
      let ipis := [lapicSendInit s i, lapicSendSipi s i 0x55]
      if registers i then (ipis ++ (initTaskLoop s registers cpus).1, (initTaskLoop s registers cpus).2)
      else (ipis, false)

/-- `init_task_func`, up to the loading of `/sbin/init`. -/
def initTaskFunc (s : Lapics) (registers : Nat → Bool) : List (Nat × Nat) × Bool :=
  initTaskLoop s registers (List.range' 1 (s.cpuCount - 1))

/-! ## The memory that the kernel sees -/

/-- The physical address of an address in the directory that the kernel boots with. -/
def kernelWalk (v : Nat) : Option Nat :=
  if ¬ Arch.canonical v then none
  else (Arch.bootFrame (v / 4096)).map fun frame => frame * 4096 + v % 4096

/-- The processor finds it there. -/
theorem hardwareWalk_bootDirectory (t : Arch.BootTables) (mem : Arch.PhysMem) (v : Nat) :
    Arch.hardwareWalk (Arch.bootDirectory t mem) (Arch.vToP t.pml4) v = kernelWalk v := by
  rw [Arch.hardwareWalk, Arch.translate_bootDirectory, kernelWalk]

theorem kernelWalk_low {x : Nat} (hx : x < 2 ^ 31) : kernelWalk x = some x := by
  rw [← hardwareWalk_bootDirectory default fun _ _ => 0]
  exact ((Arch.boot_directory_agrees default _).1 x hx).2.1

theorem kernelWalk_amd64PToV {x : Nat} (hx : x < 2 ^ 31) : kernelWalk (Arch.amd64PToV x) = some x := by
  rw [← hardwareWalk_bootDirectory default fun _ _ => 0]
  exact ((Arch.boot_directory_agrees default _).1 x hx).1

/-- The third GiB is not mapped. -/
theorem kernelWalk_eq_none {v : Nat} (hlow : 2 ^ 31 ≤ v) (hhigh : v < 2 ^ 31 + 2 ^ 30) : kernelWalk v = none := by
  have htop : Arch.tableIndex 3 (v / 4096) = 0 := by
    unfold Arch.tableIndex
    omega
  have hslot : Arch.tableIndex 2 (v / 4096) = 2 := by
    unfold Arch.tableIndex
    omega
  have hframe : Arch.bootFrame (v / 4096) = none := by simp [Arch.bootFrame, htop, hslot]
  rw [kernelWalk, hframe, Option.map_none, ite_self]

/-- An address that the kernel can read. -/
def Mapped (v : Nat) : Prop := (kernelWalk (u64 v)).isSome = true

instance (v : Nat) : Decidable (Mapped v) := inferInstanceAs (Decidable (_ = true))

/-- Addresses that the kernel can read. -/
def MappedRange (v n : Nat) : Prop := ∀ k < n, Mapped (v + k)

instance (v n : Nat) : Decidable (MappedRange v n) := inferInstanceAs (Decidable (∀ k < n, _))

/-- The memory at the addresses of the kernel.  What it has where nothing is mapped is never read. -/
def kernelView (mem : Memory) : Memory := fun v => mem ((kernelWalk (u64 v)).getD 0)

section View

variable {mem : Memory} {x n : Nat}

theorem mappedRange_low (h : x + n ≤ 2 ^ 31) : MappedRange x n := by
  intro k hk
  rw [Mapped, u64_eq_of_lt (by omega), kernelWalk_low (by omega)]
  rfl

theorem kernelView_low (hx : x < 2 ^ 31) : kernelView mem x = mem x := by
  rw [kernelView, u64_eq_of_lt (by omega), kernelWalk_low hx, Option.getD_some]

theorem amd64PToV_eq (hx : x < 2 ^ 31) : Arch.amd64PToV x = x + 0xffffffff80000000 := by
  unfold Arch.amd64PToV u64 Arch.kvstart Arch.kpstart
  omega

/-- The physical address behind an address that comes soon after that of `x`. -/
theorem kernelWalk_add {k : Nat} (h : x + k < 2 ^ 31) :
    kernelWalk (u64 (Arch.amd64PToV x + k)) = some (x + k) := by
  have hsum : u64 (Arch.amd64PToV x + k) = Arch.amd64PToV (x + k) := by
    rw [amd64PToV_eq (by omega), amd64PToV_eq h, u64]
    omega
  rw [hsum, kernelWalk_amd64PToV h]

theorem mappedRange_high (h : x + n ≤ 2 ^ 31) : MappedRange (Arch.amd64PToV x) n := by
  intro k hk
  rw [Mapped, kernelWalk_add (by omega)]
  rfl

theorem kernelView_high {k : Nat} (h : x + k < 2 ^ 31) : kernelView mem (Arch.amd64PToV x + k) = mem (x + k) := by
  rw [kernelView, kernelWalk_add h, Option.getD_some]

theorem bytes_kernelView (h : x + n ≤ 2 ^ 31) : (kernelView mem).bytes x n = mem.bytes x n :=
  Memory.bytes_eq_of_apply fun k hk => kernelView_low (by omega)

theorem load_kernelView (h : x + n ≤ 2 ^ 31) : (kernelView mem).load x n = mem.load x n :=
  Memory.load_eq_of_bytes fun k hk => kernelView_low (by omega)

theorem holdsAt_kernelView {l : List UInt8} (h : x + l.length ≤ 2 ^ 31) :
    (kernelView mem).HoldsAt x l ↔ mem.HoldsAt x l := by
  rw [Memory.HoldsAt, Memory.HoldsAt, bytes_kernelView h]

end View

/-! ## The tables of the firmware -/

/-- The loops of `__find_rspd_start` and `__find_mp_start`, with a number of turns. -/
def findLoop (mem : Memory) (needle : List UInt8) (stop : Nat) : Nat → Nat → Option Nat
  | 0, _ => none
  | turns + 1, i =>
      if i < stop then
        if mem.HoldsAt i needle then some i else findLoop mem needle stop turns (i + needle.length)
      else none

/-- The text, in steps of its length. -/
def findStart (mem : Memory) (needle : List UInt8) (start stop : Nat) : Option Nat :=
  findLoop mem needle stop (stop - start) start

/-- `"RSD PTR "`. -/
def rspdNeedle : List UInt8 := ['R', 'S', 'D', ' ', 'P', 'T', 'R', ' '].map Char.toUInt8

/-- `"_MP_"`. -/
def mpNeedle : List UInt8 := ['_', 'M', 'P', '_'].map Char.toUInt8

/-- `"APIC"`. -/
def apicSignature : List UInt8 := ['A', 'P', 'I', 'C'].map Char.toUInt8

/-- `__find_rspd_start`. -/
def findRspdStart (mem : Memory) (start stop : Nat) : Option Nat := findStart mem rspdNeedle start stop

/-- `__find_mp_start`. -/
def findMpStart (mem : Memory) (start stop : Nat) : Option Nat := findStart mem mpNeedle start stop

/-- `__validate_rspd_description`. -/
def validateRspdDescription (mem : Memory) (desc : Nat) : Bool :=
  ((mem.bytes desc 20).map UInt8.toNat).sum % 256 = 0

/-- The search for the RSDP, first in the data area of the BIOS. -/
def findRspd (mem : Memory) : Option Nat :=
  (findRspdStart mem 0x80000 0x9ffff).orElse fun _ => findRspdStart mem 0xe0000 0xfffff

/-- The bytes from an address on, up to the first one that is not mapped. -/
def mappedBytes (mem : Memory) (v : Nat) : Nat → List UInt8
  | 0 => []
  | n + 1 => if Mapped v then mem v :: mappedBytes mem (v + 1) n else []

/-- `kstrncmp` of the signature of a table with `"APIC"`, over three characters. -/
def isApic (mem : Memory) (desc : Nat) : Option Bool :=
  (Fs.kstrncmp (mappedBytes mem desc 4) apicSignature 3).map fun r => r = 0

/-- `num_entries`. -/
def numEntries (mem : Memory) (table : Nat) : Nat := u32 (mem.load (table + 4) 4 + 2 ^ 32 - 36) / 4

/-- `table->entry_address[i]`. -/
def entryAddress (mem : Memory) (table i : Nat) : Nat := mem.load (table + 36 + 4 * i) 4

/-- `mapic` after the table with a number. -/
def mapicVisit (mem : Memory) (table : Nat) (mapic : Option Nat) (i : Nat) : Except Halt (Option Nat) :=
  if MappedRange (table + 36 + 4 * i) 4 then
    match isApic mem (entryAddress mem table i) with
    | none => .error .fault
    | some true => .ok (some (Arch.amd64PToV (entryAddress mem table i)))
    | some false => .ok mapic
  else .error .fault

/-- `mapic` after the loop over the tables. -/
def findMapic (mem : Memory) (table : Nat) (mapic : Option Nat) : Except Halt (Option Nat) :=
  if MappedRange (table + 4) 4 then (List.range (numEntries mem table)).foldlM (mapicVisit mem table) mapic
  else .error .fault

/-- What `acpi_init` fills in. -/
structure Acpi where
  mapic : Option Nat
  lapics : Lapics
  ioApics : IoApics

/-- `hdr->length`. -/
def recordLength (mem : Memory) (ptr : Nat) : Nat := (mem (ptr + 1)).toNat

/-- The bytes of a record that the kernel reads are mapped. -/
def RecordMapped (mem : Memory) (ptr : Nat) : Prop :=
  MappedRange ptr 2 ∧ (mem ptr = 0 → MappedRange (ptr + 2) 2) ∧
    (mem ptr = 1 → Mapped (ptr + 2) ∧ MappedRange (ptr + 4) 8)

instance (mem : Memory) (ptr : Nat) : Decidable (RecordMapped mem ptr) := inferInstanceAs (Decidable (_ ∧ _ ∧ _))

/-- The body of the loop over the records. -/
def madtVisit (mem : Memory) (s : Acpi) (ptr : Nat) : Except Halt Acpi :=
  if ¬ RecordMapped mem ptr then .error .fault
  else if mem ptr = 0 then
    (lapicRegisterDev s.lapics (mem (ptr + 2)).toNat (mem (ptr + 3)).toNat).map fun lapics =>
      { s with lapics := lapics }
  else if mem ptr = 1 then
    (ioapicRegisterDev s.ioApics (mem (ptr + 2)).toNat (mem.load (ptr + 4) 4) (mem.load (ptr + 8) 4)).map
      fun ioApics => { s with ioApics := ioApics }
  else .ok s

/-- The end of the table. -/
def madtEnd (mem : Memory) (mapic : Nat) : Nat := u64 (mapic + mem.load (mapic + 4) 4)

/-- The loop over the records goes on.  The pointer is a 64-bit number. -/
def MadtMore (mem : Memory) (mapic ptr : Nat) : Prop := u64 ptr < madtEnd mem mapic

instance (mem : Memory) (mapic : Nat) : DecidablePred (MadtMore mem mapic) := fun _ =>
  inferInstanceAs (Decidable (_ < _))

/-- The loop over the records, with a number of turns. -/
def madtLoop (mem : Memory) (mapic turns : Nat) (s : Acpi) : Option (Except Halt Acpi) :=
  if MappedRange (mapic + 4) 4 then
    recordLoop (recordLength mem) (MadtMore mem mapic) (madtVisit mem) turns (mapic + 44) s
  else some (.error .fault)

/-- `acpi_init`: with what `__acpica_init` returns, and with a number of turns for the loop over the records.  The
RSDP is found in the first MiB. -/
def acpiInit (mem : Memory) (acpica : Except Errno Unit) (turns : Nat) (s : Acpi) :
    Option (Except Halt (Except Errno Unit × Acpi)) :=
  match findRspd (kernelView mem) with
  | none => some (.ok (.error .enxio, s))
  | some desc =>
      if validateRspdDescription (kernelView mem) desc then
        match findMapic (kernelView mem) ((kernelView mem).load (desc + 16) 4) s.mapic with
        | .error e => some (.error e)
        | .ok none => some (.ok (.error .einval, s))
        | .ok (some mapic) =>
            (madtLoop (kernelView mem) mapic turns { s with mapic := some mapic }).map fun r =>
              r.map fun s => (acpica, s)
      else some (.ok (.error .einval, s))

/-- Before `acpi_init`. -/
def acpiBoot : Acpi := ⟨none, ⟨fun _ => ⟨0, 0⟩, 0⟩, ⟨0, fun _ => ⟨0, 0, 0⟩⟩⟩

/-! ## When the walk ends -/

section Walk

variable {mem : Memory} {rsdt mapic : Nat} {s t : Acpi}

/-- The tables that the kernel looks at are mapped: the length of the table of tables, its entries, and of the
signature of each of the tables what is compared. -/
structure TablesMapped (mem : Memory) (rsdt : Nat) : Prop where
  length : MappedRange (rsdt + 4) 4
  entry : ∀ i < numEntries mem rsdt, MappedRange (rsdt + 36 + 4 * i) 4
  signature : ∀ i < numEntries mem rsdt, (isApic mem (entryAddress mem rsdt i)).isSome = true

/-- The number of a record fits into the table that it is entered in. -/
def NumberFits (mem : Memory) (ptr : Nat) : Prop :=
  (mem ptr = 0 → (mem (ptr + 2)).toNat < maxCpu) ∧ (mem ptr = 1 → (mem (ptr + 2)).toNat < maxIoapic)

theorem mapicVisit_ok_iff {m : Option Nat} {i : Nat} : (∃ m', mapicVisit mem rsdt m i = .ok m') ↔
    MappedRange (rsdt + 36 + 4 * i) 4 ∧ (isApic mem (entryAddress mem rsdt i)).isSome = true := by
  unfold mapicVisit
  by_cases hmapped : MappedRange (rsdt + 36 + 4 * i) 4
  · rcases hapic : isApic mem (entryAddress mem rsdt i) with _ | _ | _ <;> simp [hmapped]
  · simp [hmapped]

/-- The loop over the tables ends exactly if what it reads is mapped. -/
theorem findMapic_ok_iff {m : Option Nat} : (∃ m', findMapic mem rsdt m = .ok m') ↔ TablesMapped mem rsdt := by
  unfold findMapic
  split
  case isTrue hlength =>
      have hturn (m : Option Nat) (i : Nat) : (∃ m', mapicVisit mem rsdt m i = .ok m') ↔
          MappedRange (rsdt + 36 + 4 * i) 4 ∧ (isApic mem (entryAddress mem rsdt i)).isSome = true := mapicVisit_ok_iff
      rw [foldlM_ok_iff hturn]
      constructor
      · intro hall
        exact ⟨hlength, fun i hi => (hall i (List.mem_range.mpr hi)).1,
          fun i hi => (hall i (List.mem_range.mpr hi)).2⟩
      · intro h i hi
        exact ⟨h.entry i (List.mem_range.mp hi), h.signature i (List.mem_range.mp hi)⟩
  case isFalse hlength => exact iff_of_false (by simp) fun h => hlength h.length

theorem madtVisit_ok_iff {ptr : Nat} :
    (∃ t, madtVisit mem s ptr = .ok t) ↔ RecordMapped mem ptr ∧ NumberFits mem ptr := by
  unfold madtVisit NumberFits lapicRegisterDev ioapicRegisterDev
  by_cases hmapped : RecordMapped mem ptr
  · by_cases hcpu : mem ptr = 0
    · by_cases hmax : maxCpu ≤ (mem (ptr + 2)).toNat
      · simp [hmapped, hcpu, hmax, Except.map]
      · simp [hmapped, hcpu, hmax, Except.map, Nat.lt_of_not_le hmax]
    · by_cases hio : mem ptr = 1
      · by_cases hmax : maxIoapic ≤ (mem (ptr + 2)).toNat
        · simp [hmapped, hio, hmax, Except.map]
        · simp [hmapped, hio, hmax, Except.map, Nat.lt_of_not_le hmax]
      · simp [hmapped, hcpu, hio]
  · simp [hmapped]

/-- The walk over the records comes to one. -/
def WalkReaches (mem : Memory) (mapic ptr : Nat) : Prop :=
  Reaches (recordLength mem) (MadtMore mem mapic) (mapic + 44) ptr ∧ MadtMore mem mapic ptr

/-- A record that the walk gets over: it is mapped, has a length, and a number that fits. -/
structure RecordFits (mem : Memory) (ptr : Nat) : Prop where
  mapped : RecordMapped mem ptr
  length : mem (ptr + 1) ≠ 0
  number : NumberFits mem ptr

/-- A walk over records that are mapped does not get beyond the third GiB behind the next multiple of the size of the
address space. -/
theorem reaches_lt {start ptr : Nat} {more : Nat → Prop}
    (hmapped : ∀ b, Reaches (recordLength mem) more start b → more b → Mapped b)
    (hreach : Reaches (recordLength mem) more start ptr) :
    ptr ≤ (start / 2 ^ 64 + 1) * 2 ^ 64 + 2 ^ 31 + 255 := by
  induction hreach with
  | refl => omega
  | @tail b hreach hmore ih =>
      have hlength : recordLength mem b < 256 := (mem (b + 1)).toNat_lt
      have hlow : b < (start / 2 ^ 64 + 1) * 2 ^ 64 + 2 ^ 31 := by
        by_contra hnot
        have hnone : kernelWalk (u64 b) = none := by
          apply kernelWalk_eq_none <;>
            · unfold u64
              omega
        have hsome := hmapped b hreach hmore
        rw [Mapped, hnone] at hsome
        cases hsome
      omega

/-- The walk over the records ends well exactly if its table is mapped and it gets over all records that it comes
to. -/
theorem madtLoop_ok_iff : (∃ turns t, madtLoop mem mapic turns s = some (.ok t)) ↔
    MappedRange (mapic + 4) 4 ∧ ∀ ptr, WalkReaches mem mapic ptr → RecordFits mem ptr := by
  have hlength (ptr : Nat) : recordLength mem ptr ≠ 0 ↔ mem (ptr + 1) ≠ 0 := by
    rw [recordLength, ne_eq, ne_eq, ← UInt8.toNat_inj]
    rfl
  have hvisit (s : Acpi) (ptr : Nat) : (∃ t, madtVisit mem s ptr = .ok t) ↔
      RecordMapped mem ptr ∧ NumberFits mem ptr := madtVisit_ok_iff
  have hvisits {addrs : List Nat} := foldlM_ok_iff (s := s) (l := addrs) hvisit
  by_cases htable : MappedRange (mapic + 4) 4
  · have hloop (turns : Nat) : madtLoop mem mapic turns s =
        recordLoop (recordLength mem) (MadtMore mem mapic) (madtVisit mem) turns (mapic + 44) s := if_pos htable
    rw [exists_comm]
    simp only [hloop, recordLoop_ok_iff, htable, true_and]
    constructor
    · rintro ⟨t, addrs, hrecords, hfold⟩ ptr ⟨hreach, hmore⟩
      have hvisit := hvisits.mp ⟨t, hfold⟩ ptr (hrecords.mem_iff.mpr ⟨hreach, hmore⟩)
      exact ⟨hvisit.1, (hlength ptr).mp (hrecords.length_of_reaches hreach hmore), hvisit.2⟩
    · intro hall
      have hmapped : ∀ ptr, Reaches (recordLength mem) (MadtMore mem mapic) (mapic + 44) ptr →
          MadtMore mem mapic ptr → Mapped ptr := fun ptr hreach hmore =>
        (hall ptr ⟨hreach, hmore⟩).mapped.1 0 (by omega)
      obtain ⟨addrs, hrecords⟩ := records_exist
        (fun ptr hreach hmore => (hlength ptr).mpr (hall ptr ⟨hreach, hmore⟩).length)
        (fun ptr hreach _ => Nat.lt_succ_of_le (reaches_lt hmapped hreach))
      obtain ⟨t, hfold⟩ := hvisits.mpr fun ptr hptr =>
        ⟨(hall ptr (hrecords.mem_iff.mp hptr)).mapped, (hall ptr (hrecords.mem_iff.mp hptr)).number⟩
      exact ⟨t, addrs, hrecords, hfold⟩
  · simp [madtLoop, htable]

/-- `acpi_init` finds the descriptor, and in it the address of the table of tables. -/
def FindsRsdt (mem : Memory) (rsdt : Nat) : Prop :=
  ∃ desc, findRspd mem = some desc ∧ validateRspdDescription mem desc = true ∧ mem.load (desc + 16) 4 = rsdt

/-- The descriptor that is found decides on the table. -/
theorem FindsRsdt.unique {rsdt' : Nat} (h : FindsRsdt mem rsdt) (h' : FindsRsdt mem rsdt') : rsdt = rsdt' := by
  obtain ⟨desc, hfind, -, rfl⟩ := h
  obtain ⟨desc', hfind', -, rfl⟩ := h'
  rw [Option.some.inj (hfind.symm.trans hfind')]

theorem acpiInit_of_finds (h : FindsRsdt (kernelView mem) rsdt)
    (hmapic : findMapic (kernelView mem) rsdt s.mapic = .ok (some mapic)) (acpica : Except Errno Unit)
    (turns : Nat) :
    acpiInit mem acpica turns s =
      (madtLoop (kernelView mem) mapic turns { s with mapic := some mapic }).map fun r =>
        r.map fun t => (acpica, t) := by
  obtain ⟨desc, hfind, hvalid, rfl⟩ := h
  simp only [acpiInit, hfind, hvalid, if_true, hmapic]

/-- Without a descriptor, `acpi_init` returns an error and leaves everything as it was. -/
theorem acpiInit_of_none (h : ∀ rsdt, ¬ FindsRsdt (kernelView mem) rsdt) (acpica : Except Errno Unit)
    (turns : Nat) : ∃ e, acpiInit mem acpica turns s = some (.ok (.error e, s)) := by
  unfold acpiInit
  cases hfind : findRspd (kernelView mem) with
  | none => exact ⟨.enxio, rfl⟩
  | some desc =>
      cases hvalid : validateRspdDescription (kernelView mem) desc with
      | false => exact ⟨.einval, by simp [hvalid]⟩
      | true => exact absurd ⟨desc, hfind, hvalid, rfl⟩ (h _)

/-- `acpi_init` returns exactly if, in the tables that it finds, everything that it reads is mapped, and every record
that its walk comes to has a length, and a number that fits into the table of the kernel. -/
theorem acpi_init_returns_iff (mem : Memory) (acpica : Except Errno Unit) (s : Acpi) :
    (∃ turns r, acpiInit mem acpica turns s = some (.ok r)) ↔
      ∀ rsdt, FindsRsdt (kernelView mem) rsdt → TablesMapped (kernelView mem) rsdt ∧
        ∀ mapic, findMapic (kernelView mem) rsdt s.mapic = .ok (some mapic) →
          MappedRange (mapic + 4) 4 ∧
            ∀ ptr, WalkReaches (kernelView mem) mapic ptr → RecordFits (kernelView mem) ptr := by
  by_cases hfinds : ∃ rsdt, FindsRsdt (kernelView mem) rsdt
  · obtain ⟨rsdt, hfinds⟩ := hfinds
    have hone (P : Nat → Prop) : (∀ rsdt', FindsRsdt (kernelView mem) rsdt' → P rsdt') ↔ P rsdt :=
      ⟨fun hall => hall rsdt hfinds, fun hP rsdt' h => hfinds.unique h ▸ hP⟩
    rw [hone, ← findMapic_ok_iff (m := s.mapic)]
    rcases hmapic : findMapic (kernelView mem) rsdt s.mapic with e | _ | mapic
    · obtain ⟨desc, hfind, hvalid, rfl⟩ := hfinds
      simp [acpiInit, hfind, hvalid, hmapic]
    · obtain ⟨desc, hfind, hvalid, rfl⟩ := hfinds
      simp [acpiInit, hfind, hvalid, hmapic]
    · have hloop : (∃ turns t, madtLoop (kernelView mem) mapic turns { s with mapic := some mapic } = some (.ok t)) ↔
          MappedRange (mapic + 4) 4 ∧
            ∀ ptr, WalkReaches (kernelView mem) mapic ptr → RecordFits (kernelView mem) ptr := madtLoop_ok_iff
      simp only [acpiInit_of_finds hfinds hmapic, Except.ok.injEq, Option.some.injEq, exists_eq', true_and,
        forall_eq', ← hloop]
      constructor
      · rintro ⟨turns, r, hinit⟩
        obtain ⟨r', hr', hmap⟩ := Option.map_eq_some_iff.mp hinit
        obtain ⟨t, rfl, -⟩ := Halt.map_eq_ok.mp hmap
        exact ⟨turns, t, hr'⟩
      · rintro ⟨turns, t, hr⟩
        refine ⟨turns, (acpica, t), ?_⟩
        rw [hr]
        rfl
  · obtain ⟨e, hinit⟩ := acpiInit_of_none (fun rsdt h => hfinds ⟨rsdt, h⟩) acpica 0
    exact iff_of_true ⟨0, _, hinit⟩ fun rsdt h => absurd ⟨rsdt, h⟩ hfinds

end Walk

/-! ## Tables that are well formed -/

/-- A record that is not that of an APIC. -/
structure OtherRecord where
  type : UInt8
  body : List UInt8
  type_ne : type ≠ 0 ∧ type ≠ 1
  short : body.length + 2 < 256

/-- A record of the table of APICs. -/
inductive MadtRecord where
  | localApic (acpiCpuId apicId : UInt8) (flags : BitVec 32)
  | ioApic (ioApicId : UInt8) (ioApicAddr globalSysIntrBase : BitVec 32)
  | other (r : OtherRecord)

/-- The bytes of a record. -/
def MadtRecord.bytes : MadtRecord → List UInt8
  | localApic acpiCpuId apicId flags => [0, 8, acpiCpuId, apicId] ++ littleEndian 4 flags.toNat
  | ioApic ioApicId ioApicAddr globalSysIntrBase =>
      [1, 12, ioApicId, 0] ++ littleEndian 4 ioApicAddr.toNat ++ littleEndian 4 globalSysIntrBase.toNat
  | other r => [r.type, UInt8.ofNat (r.body.length + 2)] ++ r.body

/-- What is to be done for a record. -/
def MadtRecord.register (s : Acpi) : MadtRecord → Except Halt Acpi
  | localApic acpiCpuId apicId _ =>
      (lapicRegisterDev s.lapics acpiCpuId.toNat apicId.toNat).map fun lapics => { s with lapics := lapics }
  | ioApic ioApicId ioApicAddr globalSysIntrBase =>
      (ioapicRegisterDev s.ioApics ioApicId.toNat ioApicAddr.toNat globalSysIntrBase.toNat).map
        fun ioApics => { s with ioApics := ioApics }
  | other _ => .ok s

/-- The address is that of a text, and the first of those at which it is searched for. -/
structure IsFirst (mem : Memory) (needle : List UInt8) (start stop a : Nat) : Prop where
  start_le : start ≤ a
  lt_stop : a < stop
  aligned : needle.length ∣ a - start
  holds : mem.HoldsAt a needle
  first : ∀ b, start ≤ b → b < a → needle.length ∣ b - start → ¬ mem.HoldsAt b needle

/-- The tables of a firmware: the descriptor, the addresses of the tables, and the records of the one that lists
the APICs.  All of them lie in the first 2 GiB. -/
structure AcpiTables (mem : Memory) (rspd rsdt mapic : Nat) (tables : List (BitVec 32))
    (records : List MadtRecord) : Prop where
  found : IsFirst mem rspdNeedle 0x80000 0x9ffff rspd ∨
    (∀ a, ¬ IsFirst mem rspdNeedle 0x80000 0x9ffff a) ∧ IsFirst mem rspdNeedle 0xe0000 0xfffff rspd
  checksum : ((mem.bytes rspd 20).map UInt8.toNat).sum % 256 = 0
  rsdt_eq : mem.load (rspd + 16) 4 = rsdt
  rsdtLength : mem.load (rsdt + 4) 4 = 36 + 4 * tables.length
  entries : mem.HoldsAt (rsdt + 36) (tables.flatMap fun table => littleEndian 4 table.toNat)
  listed : ∃ table ∈ tables, table.toNat = mapic
  signature : mem.HoldsAt mapic apicSignature
  only : ∀ table ∈ tables, mem.HoldsAt table.toNat apicSignature → table.toNat = mapic
  length : mem.load (mapic + 4) 4 = 44 + (records.flatMap MadtRecord.bytes).length
  holds : mem.HoldsAt (mapic + 44) (records.flatMap MadtRecord.bytes)
  rsdt_lt : rsdt + 36 + 4 * tables.length ≤ 2 ^ 31
  tables_lt : ∀ table ∈ tables, table.toNat + 4 ≤ 2 ^ 31
  mapic_lt : mapic + 44 + (records.flatMap MadtRecord.bytes).length < 2 ^ 31

section Tables

variable {mem : Memory} {needle : List UInt8} {start stop a : Nat} {s t : Acpi}

theorem IsFirst.step (hpos : needle ≠ []) (hnot : ¬ mem.HoldsAt start needle) :
    IsFirst mem needle (start + needle.length) stop a ↔ IsFirst mem needle start stop a := by
  have hlength := List.length_pos_iff.mpr hpos
  constructor
  · intro h
    have hle := h.start_le
    constructor
    case start_le => omega
    case lt_stop => exact h.lt_stop
    case aligned =>
        have haligned := (Nat.dvd_add_left (Nat.dvd_refl needle.length)).mpr h.aligned
        rwa [show a - (start + needle.length) + needle.length = a - start by omega] at haligned
    case holds => exact h.holds
    case first =>
        intro b hb hba halign
        rcases Nat.eq_zero_or_pos (b - start) with hzero | hstep
        · rwa [show b = start by omega]
        · have hfar := Nat.le_of_dvd hstep halign
          refine h.first b (by omega) hba ?_
          have hdvd := Nat.dvd_sub halign (Nat.dvd_refl needle.length)
          rwa [show b - start - needle.length = b - (start + needle.length) by omega] at hdvd
  · intro h
    have hle := h.start_le
    have hne : a ≠ start := fun heq => hnot (heq ▸ h.holds)
    have hfar := Nat.le_of_dvd (by omega) h.aligned
    constructor
    case start_le => omega
    case lt_stop => exact h.lt_stop
    case aligned =>
        have hdvd := Nat.dvd_sub h.aligned (Nat.dvd_refl needle.length)
        rwa [show a - start - needle.length = a - (start + needle.length) by omega] at hdvd
    case holds => exact h.holds
    case first =>
        intro b hb hba halign
        refine h.first b (by omega) hba ?_
        have haligned := (Nat.dvd_add_left (Nat.dvd_refl needle.length)).mpr halign
        rwa [show b - (start + needle.length) + needle.length = b - start by omega] at haligned

/-- The search finds the first place of the text. -/
theorem findLoop_eq_some_iff (hpos : needle ≠ []) {turns : Nat} (hturns : stop - start ≤ turns) :
    findLoop mem needle stop turns start = some a ↔ IsFirst mem needle start stop a := by
  have hlength := List.length_pos_iff.mpr hpos
  induction turns generalizing start with
  | zero =>
      refine iff_of_false (by simp [findLoop]) fun h => ?_
      have hle := h.start_le
      have hlt := h.lt_stop
      omega
  | succ turns ih =>
      rw [findLoop]
      split
      case isFalse hstop =>
          refine iff_of_false (by simp) fun h => ?_
          have hle := h.start_le
          have hlt := h.lt_stop
          omega
      case isTrue hlt =>
          split
          case isTrue hholds =>
              rw [Option.some_inj]
              constructor
              · rintro rfl
                refine ⟨le_rfl, hlt, by simp, hholds, fun b hb hba => ?_⟩
                omega
              · intro h
                by_contra hne
                exact h.first start le_rfl (Nat.lt_of_le_of_ne h.start_le hne) (by simp) hholds
          case isFalse hnot => exact (ih (by omega)).trans (IsFirst.step hpos hnot)

theorem findStart_eq_some_iff (hpos : needle ≠ []) :
    findStart mem needle start stop = some a ↔ IsFirst mem needle start stop a :=
  findLoop_eq_some_iff hpos le_rfl

/-- `kstrncmp` does not read behind the characters that it is to compare and one more. -/
theorem kstrncmp_returns {s1 s2 : List UInt8} {n : Nat} (hs1 : s1.length = n + 1) (hs2 : s2.length = n + 1) :
    ∃ r, Fs.kstrncmp s1 s2 n = some r := by
  induction n generalizing s1 s2 with
  | zero =>
      obtain ⟨c, rfl⟩ := List.length_eq_one_iff.mp hs1
      obtain ⟨d, rfl⟩ := List.length_eq_one_iff.mp hs2
      exact ⟨if c = d then 0 else 1, by simp [Fs.kstrncmp]⟩
  | succ n ih =>
      obtain ⟨c, s1, rfl⟩ := List.exists_cons_of_length_eq_add_one hs1
      obtain ⟨d, s2, rfl⟩ := List.exists_cons_of_length_eq_add_one hs2
      by_cases hend : c = 0 ∨ d = 0
      · exact ⟨_, Fs.kstrncmp_of_end hend s1 s2 _⟩
      · rw [not_or] at hend
        by_cases hcd : c = d
        · subst hcd
          rw [Fs.kstrncmp_cons_self hend.1]
          exact ih (by simpa using hs1) (by simpa using hs2)
        · obtain ⟨r, -, hcmp⟩ := Fs.kstrncmp_of_ne hend.1 hend.2 hcd
          exact ⟨r, hcmp s1 s2 n⟩

/-- `kstrncmp` over all characters but the last one looks at the last one as well. -/
theorem kstrncmp_short_iff {s1 s2 : List UInt8} {n : Nat} (hs1 : s1.length = n + 1) (hs2 : s2.length = n + 1)
    (hzero : 0 ∉ s2) : Fs.kstrncmp s1 s2 n = some 0 ↔ s1 = s2 := by
  induction n generalizing s1 s2 with
  | zero =>
      obtain ⟨c, rfl⟩ := List.length_eq_one_iff.mp hs1
      obtain ⟨d, rfl⟩ := List.length_eq_one_iff.mp hs2
      by_cases hcd : c = d <;> simp [Fs.kstrncmp, hcd]
  | succ n ih =>
      obtain ⟨c, s1, rfl⟩ := List.exists_cons_of_length_eq_add_one hs1
      obtain ⟨d, s2, rfl⟩ := List.exists_cons_of_length_eq_add_one hs2
      rw [List.mem_cons, not_or] at hzero
      by_cases hc : c = 0
      · rw [Fs.kstrncmp_of_end (.inl hc), hc]
        simp [hzero.1]
      · by_cases hcd : c = d
        · subst hcd
          rw [Fs.kstrncmp_cons_self hc, ih (by simpa using hs1) (by simpa using hs2) hzero.2]
          simp
        · obtain ⟨r, hr, hcmp⟩ := Fs.kstrncmp_of_ne hc (Ne.symm hzero.1) hcd
          rw [hcmp]
          simp [hr, hcd]

theorem mappedBytes_eq {n : Nat} (h : MappedRange a n) : mappedBytes mem a n = mem.bytes a n := by
  induction n generalizing a with
  | zero => rfl
  | succ n ih =>
      have hrest : MappedRange (a + 1) n := fun k hk => by
        rw [Nat.add_assoc, Nat.add_comm 1 k]
        exact h (k + 1) (by omega)
      have hfirst : Mapped a := h 0 (by omega)
      rw [mappedBytes, if_pos hfirst, ih hrest, Nat.add_comm n 1, Memory.bytes_add]
      rfl

/-- The comparison of a signature that is mapped. -/
theorem isApic_eq (h : MappedRange a 4) : isApic mem a = some (decide (mem.HoldsAt a apicSignature)) := by
  have hlength : (mem.bytes a 4).length = 3 + 1 := Memory.length_bytes
  have hsignature : apicSignature.length = 3 + 1 := rfl
  have hcmp := kstrncmp_short_iff hlength hsignature (by decide)
  obtain ⟨r, hr⟩ := kstrncmp_returns hlength hsignature
  rw [isApic, mappedBytes_eq h]
  rw [hr, Option.some_inj] at hcmp
  rw [hr, Option.map_some, Option.some_inj]
  exact decide_eq_decide.mpr hcmp

/-- What a record says is its length. -/
theorem MadtRecord.length_eq (r : MadtRecord) (h : mem.HoldsAt a r.bytes) :
    recordLength mem a = r.bytes.length := by
  cases r with
  | localApic acpiCpuId apicId flags =>
      have hbyte := h.apply (i := 1) (by simp [bytes])
      simp [recordLength, hbyte, bytes]
  | ioApic ioApicId ioApicAddr globalSysIntrBase =>
      have hbyte := h.apply (i := 1) (by simp [bytes])
      simp [recordLength, hbyte, bytes]
  | other r =>
      have hbyte := h.apply (i := 1) (by simp [bytes])
      have hshort : (r.body.length + 2) % 256 = r.body.length + 2 := Nat.mod_eq_of_lt r.short
      simp [recordLength, hbyte, bytes, hshort]

theorem MappedRange.sub {n b m : Nat} (h : MappedRange a n) (hlow : a ≤ b) (hhigh : b + m ≤ a + n) :
    MappedRange b m := by
  intro k hk
  have hinside := h (b - a + k) (by omega)
  rwa [show a + (b - a + k) = b + k by omega] at hinside

/-- A record that lies in mapped memory is mapped. -/
theorem MadtRecord.recordMapped (r : MadtRecord) (h : mem.HoldsAt a r.bytes)
    (hmapped : MappedRange a r.bytes.length) : RecordMapped mem a := by
  have htype := h.apply (i := 0) (by cases r <;> simp [bytes])
  cases r with
  | localApic acpiCpuId apicId flags =>
      have hlong : (localApic acpiCpuId apicId flags).bytes.length = 8 := by simp [bytes]
      simp only [bytes, Nat.add_zero, List.cons_append, List.getElem_cons_zero] at htype
      rw [hlong] at hmapped
      exact ⟨hmapped.sub le_rfl (by omega), fun _ => hmapped.sub (by omega) (by omega), by simp [htype]⟩
  | ioApic ioApicId ioApicAddr globalSysIntrBase =>
      have hlong : (ioApic ioApicId ioApicAddr globalSysIntrBase).bytes.length = 12 := by simp [bytes]
      simp only [bytes, Nat.add_zero, List.cons_append, List.getElem_cons_zero] at htype
      rw [hlong] at hmapped
      exact ⟨hmapped.sub le_rfl (by omega), by simp [htype],
        fun _ => ⟨hmapped 2 (by omega), hmapped.sub (by omega) (by omega)⟩⟩
  | other r =>
      have hlong : (other r).bytes.length = r.body.length + 2 := by simp [bytes]
      simp only [bytes, Nat.add_zero, List.cons_append, List.getElem_cons_zero] at htype
      rw [hlong] at hmapped
      exact ⟨hmapped.sub le_rfl (by omega), fun hzero => absurd (htype.symm.trans hzero) r.type_ne.1,
        fun hone => absurd (htype.symm.trans hone) r.type_ne.2⟩

/-- A visit does what is to be done for the record. -/
theorem MadtRecord.visit_eq (r : MadtRecord) (h : mem.HoldsAt a r.bytes) (hmapped : MappedRange a r.bytes.length)
    (s : Acpi) : madtVisit mem s a = r.register s := by
  rw [madtVisit, if_neg (not_not.mpr (r.recordMapped h hmapped))]
  cases r with
  | localApic acpiCpuId apicId flags =>
      have hlong : 3 < (localApic acpiCpuId apicId flags).bytes.length := by simp [bytes]
      have htype := h.apply (i := 0) (by omega)
      have hcpu := h.apply (i := 2) (by omega)
      have hapic := h.apply (i := 3) (by omega)
      simp only [bytes, Nat.add_zero, List.cons_append, List.nil_append, List.getElem_cons_zero,
        List.getElem_cons_succ] at htype hcpu hapic
      simp only [htype, hcpu, hapic, if_true, register]
  | ioApic ioApicId ioApicAddr globalSysIntrBase =>
      have hlong : 3 < (ioApic ioApicId ioApicAddr globalSysIntrBase).bytes.length := by simp [bytes]
      have htype := h.apply (i := 0) (by omega)
      have hid := h.apply (i := 2) (by omega)
      simp only [bytes, Nat.add_zero, List.cons_append, List.nil_append, List.getElem_cons_zero,
        List.getElem_cons_succ] at htype hid
      rw [bytes, Memory.holdsAt_append, Memory.holdsAt_append] at h
      have haddr : mem.load (a + 4) 4 = ioApicAddr.toNat :=
        h.1.2.load.trans (Nat.mod_eq_of_lt ioApicAddr.isLt)
      have hbase : mem.load (a + 8) 4 = globalSysIntrBase.toNat := by
        have hload := h.2
        simp only [List.length_append, length_littleEndian] at hload
        exact hload.load.trans (Nat.mod_eq_of_lt globalSysIntrBase.isLt)
      simp [htype, hid, haddr, hbase, register]
  | other r =>
      have htype := h.apply (i := 0) (by simp [bytes])
      simp only [bytes, Nat.add_zero, List.cons_append, List.nil_append, List.getElem_cons_zero] at htype
      simp only [htype, if_neg r.type_ne.1, if_neg r.type_ne.2, register]

/-- The records of a machine with two processors and an I/O APIC. -/
def twoRecords : List MadtRecord := [.localApic 0 0 1, .localApic 1 3 1, .ioApic 0 0xfec00000 0]

/-- The memory of that machine. -/
def twoMemory : Memory :=
  let mem : Memory := fun _ => 0
  let mem := mem.write 0x80000 (rspdNeedle ++ [209, 0, 0, 0, 0, 0, 0, 0] ++ littleEndian 4 0x1000)
  let mem := mem.write 0x1004 (littleEndian 4 40)
  let mem := mem.write 0x1024 (littleEndian 4 0x2000)
  let mem := mem.write 0x2000 (apicSignature ++ littleEndian 4 72)
  mem.write 0x202c (twoRecords.flatMap MadtRecord.bytes)

theorem twoMemory_tables : AcpiTables twoMemory 0x80000 0x1000 0x2000 [0x2000] twoRecords where
  found := .inl ⟨le_rfl, by decide, by decide, by decide, fun b hb hlt => absurd hlt (Nat.not_lt.mpr hb)⟩
  checksum := by decide +kernel
  rsdt_eq := by decide
  rsdtLength := by decide
  entries := by decide
  listed := ⟨0x2000, by decide, by decide⟩
  signature := by decide
  only := fun table htable _ => by rw [List.mem_singleton.mp htable]; rfl
  length := by decide
  holds := by decide
  rsdt_lt := by decide
  tables_lt := by simp
  mapic_lt := by
    have hlength : (twoRecords.flatMap MadtRecord.bytes).length = 28 := by decide
    rw [hlength]
    norm_num

section Found

variable {rspd rsdt mapic : Nat} {tables : List (BitVec 32)} {records : List MadtRecord}

theorem AcpiTables.numEntries_eq (h : AcpiTables mem rspd rsdt mapic tables records) :
    numEntries (kernelView mem) rsdt = tables.length := by
  have hlt : mem.load (rsdt + 4) 4 < 2 ^ 32 := mem.load_lt (rsdt + 4) 4
  have hlength := h.rsdtLength
  have hmapped := h.rsdt_lt
  rw [numEntries, load_kernelView (by omega), u32]
  omega

theorem AcpiTables.entryAddress_eq (h : AcpiTables mem rspd rsdt mapic tables records) {i : Nat}
    (hi : i < tables.length) : entryAddress (kernelView mem) rsdt i = tables[i].toNat := by
  have hentry := h.entries.flatMap hi
  have hsum : ((tables.take i).map fun table : BitVec 32 => (littleEndian 4 table.toNat).length).sum = 4 * i := by
    simp [Nat.mul_comm, Nat.min_eq_left (Nat.le_of_lt hi)]
  have hmapped := h.rsdt_lt
  rw [hsum] at hentry
  rw [entryAddress, load_kernelView (by omega)]
  exact hentry.load.trans (Nat.mod_eq_of_lt tables[i].isLt)

/-- What the loop does with one of the tables. -/
theorem AcpiTables.mapicVisit_eq (h : AcpiTables mem rspd rsdt mapic tables records) {i : Nat}
    (hi : i < tables.length) (m : Option Nat) :
    mapicVisit (kernelView mem) rsdt m i =
      .ok (if tables[i].toNat = mapic then some (Arch.amd64PToV mapic) else m) := by
  have htable := List.getElem_mem hi
  have hlow := h.tables_lt _ htable
  have hmapped := h.rsdt_lt
  have hapic : mem.HoldsAt tables[i].toNat apicSignature ↔ tables[i].toNat = mapic :=
    ⟨h.only _ htable, fun heq => heq ▸ h.signature⟩
  have hfound := (holdsAt_kernelView (l := apicSignature) hlow).trans hapic
  rw [mapicVisit, if_pos (mappedRange_low (by omega)), h.entryAddress_eq hi, isApic_eq (mappedRange_low hlow)]
  by_cases hmapic : tables[i].toNat = mapic
  · rw [decide_eq_true (hfound.mpr hmapic), if_pos hmapic, hmapic]
  · rw [decide_eq_false (mt hfound.mp hmapic), if_neg hmapic]

/-- The loop over the tables finds the one that lists the APICs. -/
theorem AcpiTables.findMapic_eq (h : AcpiTables mem rspd rsdt mapic tables records) (boot : Option Nat) :
    findMapic (kernelView mem) rsdt boot = .ok (some (Arch.amd64PToV mapic)) := by
  obtain ⟨table, htable, hmapic⟩ := h.listed
  obtain ⟨k, hk, rfl⟩ := List.getElem_of_mem htable
  have hmapped := h.rsdt_lt
  have hloop : ∃ m, (List.range (numEntries (kernelView mem) rsdt)).foldlM (mapicVisit (kernelView mem) rsdt) boot =
      .ok m ∧ (k < numEntries (kernelView mem) rsdt → m = some (Arch.amd64PToV mapic)) := by
    refine foldlM_range_returns (fun i m => k < i → m = some (Arch.amd64PToV mapic)) (by omega) fun i hi m hm => ?_
    rw [h.numEntries_eq] at hi
    refine ⟨_, h.mapicVisit_eq hi m, fun hki => ?_⟩
    -- the table with the number `k` is not passed over
    rcases Nat.lt_or_eq_of_le (Nat.le_of_lt_succ hki) with hlt | rfl
    · rw [hm hlt, ite_self]
    · rw [if_pos hmapic]
  obtain ⟨m, hfold, hfound⟩ := hloop
  rw [findMapic, if_pos (mappedRange_low (by omega)), hfold, hfound (h.numEntries_eq ▸ hk)]

/-- The text is found at the same place in both views of the memory. -/
theorem isFirst_kernelView (hstop : stop + needle.length ≤ 2 ^ 31) :
    IsFirst (kernelView mem) needle start stop a ↔ IsFirst mem needle start stop a := by
  have hsame (b : Nat) (hb : b < stop) : (kernelView mem).HoldsAt b needle ↔ mem.HoldsAt b needle :=
    holdsAt_kernelView (by omega)
  constructor
  · intro h
    exact ⟨h.start_le, h.lt_stop, h.aligned, (hsame a h.lt_stop).mp h.holds, fun b hb hba hdvd hholds =>
      h.first b hb hba hdvd ((hsame b (hba.trans h.lt_stop)).mpr hholds)⟩
  · intro h
    exact ⟨h.start_le, h.lt_stop, h.aligned, (hsame a h.lt_stop).mpr h.holds, fun b hb hba hdvd hholds =>
      h.first b hb hba hdvd ((hsame b (hba.trans h.lt_stop)).mp hholds)⟩

/-- The search for the RSDP in the memory that the kernel sees. -/
theorem findRspdStart_eq_some_iff (hstop : stop + 8 ≤ 2 ^ 31) :
    findRspdStart (kernelView mem) start stop = some a ↔ IsFirst mem rspdNeedle start stop a :=
  (findStart_eq_some_iff (by decide)).trans (isFirst_kernelView hstop)

theorem AcpiTables.rspd_lt (h : AcpiTables mem rspd rsdt mapic tables records) : rspd < 0xfffff := by
  rcases h.found with hlow | ⟨-, hhigh⟩
  · exact hlow.lt_stop.trans (by decide)
  · exact hhigh.lt_stop

theorem AcpiTables.findsRsdt (h : AcpiTables mem rspd rsdt mapic tables records) :
    FindsRsdt (kernelView mem) rsdt := by
  have hlt := h.rspd_lt
  refine ⟨rspd, ?_, ?_, ?_⟩
  · unfold findRspd
    rcases h.found with hlow | ⟨hnone, hhigh⟩
    · rw [(findRspdStart_eq_some_iff (by decide)).mpr hlow]
      rfl
    · have hmiss : findRspdStart (kernelView mem) 0x80000 0x9ffff = none := by
        rw [Option.eq_none_iff_forall_ne_some]
        intro a ha
        exact hnone a ((findRspdStart_eq_some_iff (by decide)).mp ha)
      rw [hmiss, (findRspdStart_eq_some_iff (by decide)).mpr hhigh]
      rfl
  · rw [validateRspdDescription, bytes_kernelView (by omega)]
    simpa using h.checksum
  · rw [load_kernelView (by omega), h.rsdt_eq]

/-- The walk over well-formed tables does what is to be done for the records, one after the other. -/
theorem AcpiTables.madtLoop_eq (h : AcpiTables mem rspd rsdt mapic tables records) (s : Acpi) :
    madtLoop (kernelView mem) (Arch.amd64PToV mapic) records.length s =
      some (records.foldlM MadtRecord.register s) := by
  have hlt := h.mapic_lt
  have hbase := amd64PToV_eq (x := mapic) (by omega)
  have hpos : ∀ r ∈ records, r.bytes ≠ [] := by
    intro r _
    cases r <;> simp [MadtRecord.bytes]
  have hlength : (kernelView mem).load (Arch.amd64PToV mapic + 4) 4 =
      44 + (records.flatMap MadtRecord.bytes).length := by
    rw [← h.length]
    exact Memory.load_eq_of_bytes fun k hk => by rw [Nat.add_assoc, Nat.add_assoc, kernelView_high (by omega)]
  have hend : madtEnd (kernelView mem) (Arch.amd64PToV mapic) =
      Arch.amd64PToV mapic + 44 + (records.flatMap MadtRecord.bytes).length := by
    rw [madtEnd, hlength, ← Nat.add_assoc, u64_eq_of_lt (by omega)]
  have hholds : (kernelView mem).HoldsAt (Arch.amd64PToV mapic + 44) (records.flatMap MadtRecord.bytes) := by
    have hbytes : (kernelView mem).bytes (Arch.amd64PToV mapic + 44) (records.flatMap MadtRecord.bytes).length =
        mem.bytes (mapic + 44) (records.flatMap MadtRecord.bytes).length :=
      Memory.bytes_eq_of_apply fun k hk => by rw [Nat.add_assoc, Nat.add_assoc, kernelView_high (by omega)]
    exact hbytes.trans h.holds
  have hmapped := mappedRange_high (x := mapic) (n := 44 + (records.flatMap MadtRecord.bytes).length) (by omega)
  rw [madtLoop, if_pos (hmapped.sub (by omega) (by omega))]
  have hmore : ∀ b, Arch.amd64PToV mapic + 44 ≤ b → b < madtEnd (kernelView mem) (Arch.amd64PToV mapic) →
      MadtMore (kernelView mem) (Arch.amd64PToV mapic) b := by
    intro b _ hb
    rwa [MadtMore, u64_eq_of_lt (by omega)]
  have hstop : ¬ MadtMore (kernelView mem) (Arch.amd64PToV mapic)
      (madtEnd (kernelView mem) (Arch.amd64PToV mapic)) := by
    rw [MadtMore, u64_eq_of_lt (by omega)]
    exact lt_irrefl _
  exact recordLoop_stored hpos (fun r _ b hb => r.length_eq hb)
    (fun r _ b s hlow hhigh hb => r.visit_eq hb (hmapped.sub (by omega) (by omega)) s) hmore hstop le_rfl hend.symm
    hholds s

theorem AcpiTables.acpiInit_eq (h : AcpiTables mem rspd rsdt mapic tables records) (acpica : Except Errno Unit)
    (s : Acpi) :
    acpiInit mem acpica records.length s =
      some ((records.foldlM MadtRecord.register { s with mapic := some (Arch.amd64PToV mapic) }).map fun t =>
        (acpica, t)) := by
  rw [acpiInit_of_finds h.findsRsdt (h.findMapic_eq _), h.madtLoop_eq]
  rfl

end Found

/-! ## Starting the processors -/

/-- The processors of a table: their numbers and the identifiers of their local APICs. -/
def cpusOf (records : List MadtRecord) : List (Nat × Nat) :=
  records.filterMap fun
    | .localApic acpiCpuId apicId _ => some (acpiCpuId.toNat, apicId.toNat)
    | _ => none

/-- One more processor in the table. -/
def Lapics.put (s : Lapics) (c : Nat × Nat) : Lapics :=
  ⟨Function.update s.lapics c.1 ⟨c.1, c.2⟩, u32 (s.cpuCount + 1)⟩

/-- What is registered for the processors of a table. -/
theorem lapics_of_register {records : List MadtRecord} (h : records.foldlM MadtRecord.register s = .ok t) :
    t.lapics = (cpusOf records).foldl Lapics.put s.lapics := by
  induction records generalizing s with
  | nil =>
      cases h
      rfl
  | cons r records ih =>
      rw [List.foldlM_cons] at h
      obtain ⟨u, hfirst, hrest⟩ := Halt.bind_eq_ok.mp h
      rw [ih hrest]
      cases r with
      | localApic acpiCpuId apicId flags =>
          obtain ⟨lapics, hlapics, rfl⟩ := Halt.map_eq_ok.mp hfirst
          obtain ⟨-, hlapics⟩ := guard_eq_ok.mp hlapics
          obtain rfl := Except.ok.inj hlapics
          rfl
      | ioApic ioApicId ioApicAddr globalSysIntrBase =>
          obtain ⟨ioApics, -, rfl⟩ := Halt.map_eq_ok.mp hfirst
          rfl
      | other r =>
          obtain rfl := Except.ok.inj hfirst
          rfl

/-- What a processor writes into the entry with a number. -/
def lapicWrite (cpu : Nat) (c : Nat × Nat) : Option LapicEntry := if c.1 = cpu then some ⟨c.1, c.2⟩ else none

theorem lapics_foldl_put (cpus : List (Nat × Nat)) (l : Lapics) (cpu : Nat) :
    (cpus.foldl Lapics.put l).lapics cpu = lastWrite (lapicWrite cpu) cpus (l.lapics cpu) := by
  induction cpus generalizing l with
  | nil => rfl
  | cons c cpus ih =>
      rw [List.foldl_cons, ih, lastWrite_cons]
      by_cases hc : c.1 = cpu
      · simp [Lapics.put, lapicWrite, hc]
      · simp [Lapics.put, lapicWrite, hc, Function.update_of_ne (Ne.symm hc)]

theorem cpuCount_foldl_put (cpus : List (Nat × Nat)) (l : Lapics) (hsmall : l.cpuCount + cpus.length < 2 ^ 32) :
    (cpus.foldl Lapics.put l).cpuCount = l.cpuCount + cpus.length := by
  induction cpus generalizing l with
  | nil => rfl
  | cons c cpus ih =>
      rw [List.length_cons] at hsmall ⊢
      have hone : (l.put c).cpuCount = l.cpuCount + 1 := u32_eq_of_lt (by omega)
      rw [List.foldl_cons, ih _ (by omega), hone]
      omega

/-- As many numbers as there are below a bound, and all of them. -/
theorem perm_range_iff (ids : List Nat) : (∀ i < ids.length, i ∈ ids) ↔ ids.Perm (List.range ids.length) := by
  constructor
  · intro hall
    have hsub : List.range ids.length ⊆ ids := fun i hi => hall i (List.mem_range.mp hi)
    have hsubperm := List.subperm_of_subset List.nodup_range hsub
    exact (hsubperm.perm_of_length_le (by simp)).symm
  · intro hperm i hi
    exact hperm.mem_iff.mpr (List.mem_range.mpr hi)

/-- A table with processors. -/
structure Lapics.Of (l : Lapics) (cpus : List (Nat × Nat)) : Prop where
  count : l.cpuCount = cpus.length
  entry : ∀ cpu, l.lapics cpu = lastWrite (lapicWrite cpu) cpus ⟨0, 0⟩

variable {l : Lapics} {cpus : List (Nat × Nat)}

/-- The entry of a processor whose number no other one has. -/
theorem Lapics.Of.entry_of_mem (h : l.Of cpus) (hnodup : (cpus.map Prod.fst).Nodup) {c : Nat × Nat}
    (hc : c ∈ cpus) : l.lapics c.1 = ⟨c.1, c.2⟩ := by
  obtain ⟨before, after, rfl⟩ := List.append_of_mem hc
  rw [List.map_append, List.map_cons] at hnodup
  have hlater := (List.nodup_cons.mp (List.nodup_append.mp hnodup).2.1).1
  have hown : lapicWrite c.1 c = some ⟨c.1, c.2⟩ := if_pos rfl
  rw [h.entry]
  apply lastWrite_of_split _ hown
  intro d hd
  have hne : d.1 ≠ c.1 := fun heq => hlater (heq ▸ List.mem_map_of_mem hd)
  exact if_neg hne

/-- Every number below the count is that of a processor, and leads to its local APIC. -/
def Lapics.Complete (l : Lapics) (cpus : List (Nat × Nat)) : Prop :=
  ∀ cpu < l.cpuCount, ∃ c ∈ cpus, c.1 = cpu ∧ lapicGetLapicId l cpu = .ok c.2

theorem Lapics.Of.complete_iff (h : l.Of cpus) :
    l.Complete cpus ↔ (cpus.map Prod.fst).Perm (List.range cpus.length) := by
  have hrange := perm_range_iff (cpus.map Prod.fst)
  rw [List.length_map] at hrange
  rw [← hrange, Lapics.Complete, h.count]
  constructor
  · intro hall cpu hcpu
    obtain ⟨c, hc, rfl, -⟩ := hall cpu hcpu
    exact List.mem_map_of_mem hc
  · intro hall cpu hcpu
    have hnodup := (hrange.mp hall).nodup_iff.mpr List.nodup_range
    obtain ⟨c, hc, rfl⟩ := List.mem_map.mp (hall cpu hcpu)
    refine ⟨c, hc, rfl, ?_⟩
    rw [lapicGetLapicId, if_neg (by rw [h.count]; exact Nat.not_le.mpr hcpu), h.entry_of_mem hnodup hc]

/-- The commands that start a processor. -/
def startIpis (c : Nat × Nat) : List (Nat × Nat) := [(c.2 * 2 ^ 24, 0x4500), (c.2 * 2 ^ 24, 0x4655)]

/-- The numbers of the processors but the first one. -/
theorem filter_range_ne_zero (n : Nat) : (List.range n).filter (· ≠ 0) = List.range' 1 (n - 1) := by
  cases n with
  | zero => rfl
  | succ n =>
      rw [List.range_eq_range', List.range'_succ, List.filter_cons_of_neg (by simp), Nat.add_sub_cancel,
        List.filter_eq_self]
      intro i hi
      rw [List.mem_range'_1] at hi
      simpa using (show i ≠ 0 by omega)

/-- The numbers of the processors that the init task starts: up to the first one that does not register itself. -/
theorem initTaskLoop_commands (registers : Nat → Bool) (first n : Nat) :
    (initTaskLoop l registers (List.range' first n)).1 =
      ((List.range' first n).filter fun i => ∀ j < i, first ≤ j → registers j).flatMap fun i =>
        [lapicSendInit l i, lapicSendSipi l i 0x55] := by
  induction n generalizing first with
  | zero => rfl
  | succ n ih =>
      have hfirst : (∀ j < first, first ≤ j → registers j) = True := by
        rw [eq_iff_iff, iff_true]
        intro j hlt hle
        omega
      rw [List.range'_succ, initTaskLoop, List.filter_cons_of_pos (by simp [hfirst]), List.flatMap_cons]
      by_cases hregisters : registers first
      · have hrest : (List.range' (first + 1) n).filter (fun i => ∀ j < i, first ≤ j → registers j) =
            (List.range' (first + 1) n).filter fun i => ∀ j < i, first + 1 ≤ j → registers j := by
          refine List.filter_congr fun i _ => decide_eq_decide.mpr ⟨fun h j hj hle => h j hj (by omega), ?_⟩
          intro h j hj hle
          rcases Nat.lt_or_eq_of_le hle with hlt | rfl
          · exact h j hj hlt
          · exact hregisters
        rw [if_pos hregisters, ih, hrest]
      · have hrest : (List.range' (first + 1) n).filter (fun i => ∀ j < i, first ≤ j → registers j) = [] := by
          rw [List.filter_eq_nil_iff]
          intro i hi
          rw [List.mem_range'_1] at hi
          simpa using ⟨first, by omega, le_rfl, Bool.eq_false_of_not_eq_true hregisters⟩
        rw [if_neg hregisters, hrest, List.flatMap_nil, List.append_nil]

/-- The init task goes on exactly if all of them register themselves. -/
theorem initTaskLoop_ends_iff (registers : Nat → Bool) (cpus : List Nat) :
    (initTaskLoop l registers cpus).2 = true ↔ ∀ i ∈ cpus, registers i := by
  induction cpus with
  | nil => simp [initTaskLoop]
  | cons i cpus ih =>
      rw [initTaskLoop, List.forall_mem_cons]
      by_cases hregisters : registers i
      · rw [if_pos hregisters, ih]
        exact (and_iff_right hregisters).symm
      · rw [if_neg hregisters]
        exact iff_of_false (by simp) fun h => hregisters h.1

/-- The numbers of the processors but the one with the number 0, when the numbers are those below the count. -/
theorem others_perm (hperm : (cpus.map Prod.fst).Perm (List.range cpus.length)) :
    ((cpus.filter fun c => c.1 ≠ 0).map Prod.fst).Perm (List.range' 1 (cpus.length - 1)) := by
  rw [← filter_range_ne_zero, ← Function.comp_def (fun i : Nat => decide (i ≠ 0)) Prod.fst, ← List.filter_map]
  exact hperm.filter _

/-- A processor is started by the init task: it is not the one with the number 0, and all before it register
themselves. -/
def Started (registers : Nat → Bool) (c : Nat × Nat) : Prop := c.1 ≠ 0 ∧ ∀ j < c.1, 1 ≤ j → registers j

instance (registers : Nat → Bool) : DecidablePred (Started registers) := fun _ =>
  inferInstanceAs (Decidable (_ ∧ _))

/-- What the init task does when the numbers are those below the count. -/
theorem Lapics.Of.initTaskFunc_perm (h : l.Of cpus) (hperm : (cpus.map Prod.fst).Perm (List.range cpus.length))
    (hids : ∀ c ∈ cpus, c.2 < 256) (registers : Nat → Bool) :
    (initTaskFunc l registers).1.Perm ((cpus.filter (Started registers)).flatMap startIpis) ∧
      ((initTaskFunc l registers).2 = true ↔ ∀ c ∈ cpus, c.1 ≠ 0 → registers c.1) := by
  have hnodup := hperm.nodup_iff.mpr List.nodup_range
  have hothers := others_perm hperm
  have hcommands : ∀ c ∈ cpus.filter (Started registers),
      [lapicSendInit l c.1, lapicSendSipi l c.1 0x55] = startIpis c := by
    intro c hc
    have hmem := List.mem_of_mem_filter hc
    have hid := hids c hmem
    have hhigh : icrHigh l c.1 = c.2 * 2 ^ 24 := by
      rw [icrHigh, h.entry_of_mem hnodup hmem, u32]
      dsimp only
      omega
    simp [lapicSendInit, lapicSendSipi, startIpis, hhigh]
  constructor
  · have hstarted : ((cpus.filter (Started registers)).map Prod.fst).Perm
        ((List.range' 1 (cpus.length - 1)).filter fun i => ∀ j < i, 1 ≤ j → registers j) := by
      have hfilter := hothers.filter fun i => ∀ j < i, 1 ≤ j → registers j
      rw [List.filter_map, List.filter_filter] at hfilter
      refine (List.Perm.of_eq (congrArg (List.map Prod.fst) (List.filter_congr fun c _ => ?_))).trans hfilter
      rw [Bool.eq_iff_iff, decide_eq_true_iff]
      simp [Started, and_comm]
    rw [initTaskFunc, initTaskLoop_commands, h.count]
    refine (hstarted.symm.flatMap_right _).trans (List.Perm.of_eq ?_)
    rw [List.flatMap_map]
    exact List.flatMap_congr hcommands
  · rw [initTaskFunc, initTaskLoop_ends_iff, h.count]
    constructor
    · intro hall c hc hzero
      exact hall c.1 (hothers.mem_iff.mp (List.mem_map_of_mem (List.mem_filter.mpr ⟨hc, by simpa using hzero⟩)))
    · intro hall i hi
      obtain ⟨c, hc, rfl⟩ := List.mem_map.mp (hothers.mem_iff.mpr hi)
      rw [List.mem_filter] at hc
      exact hall c hc.1 (by simpa using hc.2)

section Boot

variable {rspd rsdt mapic : Nat} {tables : List (BitVec 32)} {records : List MadtRecord}

theorem cpusOf_lt {c : Nat × Nat} (hc : c ∈ cpusOf records) : c.2 < 256 := by
  obtain ⟨r, -, hr⟩ := List.mem_filterMap.mp hc
  cases r with
  | localApic acpiCpuId apicId flags =>
      obtain rfl := Option.some.inj hr
      exact apicId.toNat_lt
  | ioApic => cases hr
  | other => cases hr

theorem length_cpusOf_le (records : List MadtRecord) :
    (cpusOf records).length ≤ (records.flatMap MadtRecord.bytes).length := by
  refine (List.length_filterMap_le _ _).trans ?_
  induction records with
  | nil => simp
  | cons r records ih =>
      have hpos : 0 < r.bytes.length := by cases r <;> simp [MadtRecord.bytes]
      rw [List.length_cons, List.flatMap_cons, List.length_append]
      omega

/-- What `acpi_init` leaves of well-formed tables. -/
theorem AcpiTables.lapics_of (h : AcpiTables mem rspd rsdt mapic tables records) {acpica r : Except Errno Unit}
    (hinit : acpiInit mem acpica records.length acpiBoot = some (.ok (r, t))) : t.lapics.Of (cpusOf records) := by
  rw [h.acpiInit_eq] at hinit
  obtain ⟨u, hregister, hu⟩ := Halt.map_eq_ok.mp (Option.some.inj hinit)
  obtain rfl := (Prod.mk.inj hu).2
  have hlapics := lapics_of_register hregister
  have hlength := h.length
  have hload : mem.load (mapic + 4) 4 < 2 ^ 32 := mem.load_lt (mapic + 4) 4
  have hle := length_cpusOf_le records
  constructor
  case count =>
      rw [hlapics, cpuCount_foldl_put _ _ (by simp only [acpiBoot]; omega)]
      simp [acpiBoot]
  case entry =>
      intro cpu
      rw [hlapics, lapics_foldl_put]
      rfl

/-- After `acpi_init` has read well-formed tables, every number below the count leads to a processor of the tables
exactly if the processors have the numbers from 0 on, in any order.  Then the init task starts a processor, with one
INIT and one startup interrupt, exactly if it does not have the number 0 and all with smaller numbers register
themselves; it sends no others, and goes on exactly if all processors but that with the number 0 register
themselves. -/
theorem acpi_starts_processors (h : AcpiTables mem rspd rsdt mapic tables records)
    {acpica r : Except Errno Unit} (hinit : acpiInit mem acpica records.length acpiBoot = some (.ok (r, t)))
    (registers : Nat → Bool) :
    (t.lapics.Complete (cpusOf records) ↔
        ((cpusOf records).map Prod.fst).Perm (List.range (cpusOf records).length)) ∧
      (((cpusOf records).map Prod.fst).Perm (List.range (cpusOf records).length) →
        (initTaskFunc t.lapics registers).1.Perm (((cpusOf records).filter (Started registers)).flatMap startIpis) ∧
          ((initTaskFunc t.lapics registers).2 = true ↔ ∀ c ∈ cpusOf records, c.1 ≠ 0 → registers c.1)) := by
  have hof := h.lapics_of hinit
  exact ⟨hof.complete_iff, fun hperm => hof.initTaskFunc_perm hperm (fun c hc => cpusOf_lt hc) registers⟩

/-- The second processor of the machine is started through its own local APIC, and does not register itself. -/
theorem acpi_starts_two : ∃ t, acpiInit twoMemory (.ok ()) 3 acpiBoot = some (.ok (.ok (), t)) ∧
    (initTaskFunc t.lapics fun _ => false).1.Perm [(3 * 2 ^ 24, 0x4500), (3 * 2 ^ 24, 0x4655)] ∧
      (initTaskFunc t.lapics fun _ => false).2 = false := by
  have hstarts := (acpi_starts_processors twoMemory_tables (twoMemory_tables.acpiInit_eq (.ok ()) acpiBoot)
    fun _ => false).2 (by decide)
  refine ⟨_, twoMemory_tables.acpiInit_eq (.ok ()) acpiBoot, hstarts.1, ?_⟩
  rw [Bool.eq_false_iff, ne_eq, hstarts.2]
  decide

end Boot

end Tables

end Kernel
end Micael
