import Micael.Kernel.Machine

/-!
# Constants and small types of the memory manager

These are the definitions of `mm/types.h` that the page frame allocator, the
slab allocator, the kernel heap and the page directories share.
-/

namespace Micael
namespace Mm

/-- `PAGE_SIZE`. -/
def pageSize : Nat := 4096

/-- `PAGE_SHIFT`. -/
def pageShift : Nat := 12

/-- `BUDDY_MAX_ORDER`. -/
def buddyMaxOrder : Nat := 16

/-- `INVALID_ADDRESS`, that is `ULONG_MAX`. -/
def invalidAddress : Nat := 2 ^ 64 - 1

/-- `MM_ZONES`. -/
inductive MmZoneId where
  | dma
  | normal
  | high
deriving DecidableEq, Repr

/-- `MM_ZONE_DMA_END` and `MM_ZONE_NORMAL_START`: 16 MiB. -/
def mmZoneNormalStart : Nat := 0x1000000

/-- `MM_ZONE_NORMAL_END`, `MM_ZONE_HIGH_START` and `MM_ZONE_HIGH_END`. -/
def mmZoneNormalEnd : Nat := 0xffffffffffffffff

/-- `MM_PAGE_TYPES`, the two-bit type of a `page_t`. -/
inductive MmPageType where
  | invalid
  | free
  | inUse
deriving DecidableEq, Repr

/-- `MM_HIGH_PRIO` and `MM_ZERO` of `MM_ALLOC_FLAGS`. -/
structure MmFlags where
  zero : Bool
  highPrio : Bool
deriving DecidableEq, Repr

/-- `PAGE_ALIGNED(value)`. -/
def pageAligned (value : Nat) : Prop := value % pageSize = 0

instance (value : Nat) : Decidable (pageAligned value) :=
  inferInstanceAs (Decidable (value % pageSize = 0))

/-- The number of bytes of a block of the given order. -/
def blockSize (order : Nat) : Nat := 2 ^ order * pageSize

theorem blockSize_pos (order : Nat) : 0 < blockSize order := by
  unfold blockSize pageSize
  positivity

/-- The addresses of a block. -/
def blockAddrs (start order : Nat) : Set Nat :=
  Set.Ico start (start + blockSize order)

theorem blockSize_succ (order : Nat) :
    blockSize (order + 1) = blockSize order + blockSize order := by
  simp only [blockSize, pow_succ]
  ring

theorem pageSize_dvd_blockSize (order : Nat) : pageSize ∣ blockSize order :=
  Dvd.intro_left _ rfl

end Mm
end Micael
