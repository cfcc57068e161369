import Micael.Foundation.Memory
import Micael.Kernel.Machine

/-!
# PCI configuration space

The configuration space of a function is 256 bytes.  The device gives and takes aligned words of 32 bits: one
port takes an address (bus, device, function and register), another one is the word at this address.

A narrow read takes its bytes out of the word.  A narrow write hands its value on as a whole word, and so
replaces the other bytes of the word with zeros.  `AcpiOsReadPciConfiguration` clears the low bits of the
register before any read.

Main results:

- Theorem {lit}`pciReadU8_eq`, {lit}`pciReadU16_eq`, {lit}`pciReadU32_eq`: a read returns the bytes at its
  register.
- Theorem {lit}`setPciFieldU32_config`: what a write of a word changes.
- Theorem {lit}`pci_access_right_iff`: when an access is right, for all accesses.
-/

namespace Micael
namespace Drivers

open Foundation

/-! ## Ports -/

/-- The host bridge: the address that was written last, and the configuration spaces.  A function is named
by its bits in an address. -/
structure PciBus where
  address : UInt32
  config : Nat → Memory

/-- `PCI_CONFIG_ADDR`. -/
def pciConfigAddr : Nat := 0xcf8

/-- `PCI_CONFIG_DATA`. -/
def pciConfigData : Nat := 0xcfc

/-- `PCI_ENABLE`. -/
def pciEnable : UInt32 := 0x80000000

/-- The bit `PCI_ENABLE` of the address is set. -/
def PciBus.enabled (s : PciBus) : Bool := 2 ^ 31 ≤ s.address.toNat

/-- The function that the address names. -/
def PciBus.function (s : PciBus) : Nat := s.address.toNat / 2 ^ 8 % 2 ^ 16

/-- The first byte of the word that the address names. -/
def PciBus.register (s : PciBus) : Nat := s.address.toNat % 2 ^ 8 / 4 * 4

/-- `outl`. -/
def PciBus.outl (s : PciBus) (port : Nat) (val : UInt32) : PciBus :=
  if port = pciConfigAddr then { s with address := val }
  else if port = pciConfigData ∧ s.enabled then
    { s with config :=
        Function.update s.config s.function ((s.config s.function).store s.register 4 val.toNat) }
  else s

/-- `inl`. -/
def PciBus.inl (s : PciBus) (port : Nat) : UInt32 :=
  if port = pciConfigAddr then s.address
  else if port = pciConfigData ∧ s.enabled then UInt32.ofNat ((s.config s.function).load s.register 4)
  else 0xffffffff

/-! ## Accesses -/

/-- The address in `__get_pci_field_u32` and `__set_pci_field_u32`. -/
def pciAddress (bus dev func offset : UInt32) : UInt32 :=
  pciEnable ||| (bus <<< 16) ||| (dev <<< 11) ||| (func <<< 8) ||| (offset &&& 0xfc)

/-- `__get_pci_field_u32`. -/
def getPciFieldU32 (s : PciBus) (bus dev func offset : UInt32) : UInt32 × PciBus :=
  let s := s.outl pciConfigAddr (pciAddress bus dev func offset)
  (s.inl pciConfigData, s)

/-- `__get_pci_field_u16`. -/
def getPciFieldU16 (s : PciBus) (bus dev func offset : UInt32) : UInt16 × PciBus :=
  let r := getPciFieldU32 s bus dev func (offset &&& ~~~3)
  ((r.1 >>> ((offset &&& 2) * 8)).toUInt16, r.2)

/-- `__get_pci_field_u8`. -/
def getPciFieldU8 (s : PciBus) (bus dev func offset : UInt32) : UInt8 × PciBus :=
  let r := getPciFieldU16 s bus dev func (offset &&& ~~~1)
  ((r.1.toUInt32 >>> ((offset &&& 1) * 8)).toUInt8, r.2)

/-- `__set_pci_field_u32`. -/
def setPciFieldU32 (s : PciBus) (bus dev func offset val : UInt32) : PciBus :=
  let s := s.outl pciConfigAddr (pciAddress bus dev func offset)
  s.outl pciConfigData val

/-- `__set_pci_field_u16`. -/
def setPciFieldU16 (s : PciBus) (bus dev func offset : UInt32) (val : UInt16) : PciBus :=
  setPciFieldU32 s bus dev func offset val.toUInt32

/-- `__set_pci_field_u8`. -/
def setPciFieldU8 (s : PciBus) (bus dev func offset : UInt32) (val : UInt8) : PciBus :=
  setPciFieldU32 s bus dev func offset val.toUInt32

/-- `pci_read_u8`. -/
def pciReadU8 (s : PciBus) (bus dev func reg : UInt8) : UInt8 × PciBus :=
  getPciFieldU8 s bus.toUInt32 dev.toUInt32 func.toUInt32 reg.toUInt32

/-- `pci_read_u16`. -/
def pciReadU16 (s : PciBus) (bus dev func reg : UInt8) : UInt16 × PciBus :=
  getPciFieldU16 s bus.toUInt32 dev.toUInt32 func.toUInt32 reg.toUInt32

/-- `pci_read_u32`. -/
def pciReadU32 (s : PciBus) (bus dev func reg : UInt8) : UInt32 × PciBus :=
  getPciFieldU32 s bus.toUInt32 dev.toUInt32 func.toUInt32 reg.toUInt32

/-- `pci_write_u8`. -/
def pciWriteU8 (s : PciBus) (bus dev func reg val : UInt8) : PciBus :=
  setPciFieldU8 s bus.toUInt32 dev.toUInt32 func.toUInt32 reg.toUInt32 val

/-- `pci_write_u16`. -/
def pciWriteU16 (s : PciBus) (bus dev func reg : UInt8) (val : UInt16) : PciBus :=
  setPciFieldU16 s bus.toUInt32 dev.toUInt32 func.toUInt32 reg.toUInt32 val

/-- `pci_write_u32`. -/
def pciWriteU32 (s : PciBus) (bus dev func reg : UInt8) (val : UInt32) : PciBus :=
  setPciFieldU32 s bus.toUInt32 dev.toUInt32 func.toUInt32 reg.toUInt32 val

/-- `AcpiOsReadPciConfiguration`, which returns nothing for another width. -/
def acpiOsReadPciConfiguration (s : PciBus) (bus dev func : UInt8) (reg width : UInt32) :
    Option UInt64 × PciBus :=
  let reg := (reg &&& ~~~3).toUInt8
  if width = 8 then
    let r := pciReadU8 s bus dev func reg
    (some r.1.toUInt64, r.2)
  else if width = 16 then
    let r := pciReadU16 s bus dev func reg
    (some r.1.toUInt64, r.2)
  else if width = 32 then
    let r := pciReadU32 s bus dev func reg
    (some r.1.toUInt64, r.2)
  else (none, s)

/-! ## What is promised -/

/-- A function of a device on a bus. -/
structure PciFunction where
  bus : UInt8
  dev : UInt8
  func : UInt8
  dev_lt : dev.toNat < 32
  func_lt : func.toNat < 8

/-- The bits of a function in an address. -/
def PciFunction.number (f : PciFunction) : Nat := f.bus.toNat * 2 ^ 8 + f.dev.toNat * 2 ^ 3 + f.func.toNat

/-- An access to a register of a function. -/
inductive PciAccess where
  | readU8 (reg : UInt8)
  | readU16 (reg : UInt8)
  | readU32 (reg : UInt8)
  | writeU8 (reg val : UInt8)
  | writeU16 (reg : UInt8) (val : UInt16)
  | writeU32 (reg : UInt8) (val : UInt32)
  | acpiRead8 (reg : UInt8)
  | acpiRead16 (reg : UInt8)
  | acpiRead32 (reg : UInt8)

/-- The register is a multiple of the width. -/
def PciAccess.Aligned : PciAccess → Prop
  | readU8 _ | writeU8 _ _ | acpiRead8 _ => True
  | readU16 reg | writeU16 reg _ | acpiRead16 reg => reg.toNat % 2 = 0
  | readU32 reg | writeU32 reg _ | acpiRead32 reg => reg.toNat % 4 = 0

/-- The configuration spaces with `n` bytes of a function replaced, and no other byte. -/
def PciBus.Stored (s s' : PciBus) (f : PciFunction) (reg n val : Nat) : Prop :=
  s'.config = Function.update s.config f.number ((s.config f.number).store reg n val)

/-- What an access returns and changes is right. -/
def PciAccess.Right (s : PciBus) (f : PciFunction) : PciAccess → Prop
  | readU8 reg =>
      let r := pciReadU8 s f.bus f.dev f.func reg
      r.1.toNat = (s.config f.number).load reg.toNat 1 ∧ r.2.config = s.config
  | readU16 reg =>
      let r := pciReadU16 s f.bus f.dev f.func reg
      r.1.toNat = (s.config f.number).load reg.toNat 2 ∧ r.2.config = s.config
  | readU32 reg =>
      let r := pciReadU32 s f.bus f.dev f.func reg
      r.1.toNat = (s.config f.number).load reg.toNat 4 ∧ r.2.config = s.config
  | writeU8 reg val => s.Stored (pciWriteU8 s f.bus f.dev f.func reg val) f reg.toNat 1 val.toNat
  | writeU16 reg val => s.Stored (pciWriteU16 s f.bus f.dev f.func reg val) f reg.toNat 2 val.toNat
  | writeU32 reg val => s.Stored (pciWriteU32 s f.bus f.dev f.func reg val) f reg.toNat 4 val.toNat
  | acpiRead8 reg =>
      (acpiOsReadPciConfiguration s f.bus f.dev f.func reg.toUInt32 8).1 =
        some (pciReadU8 s f.bus f.dev f.func reg).1.toUInt64
  | acpiRead16 reg =>
      (acpiOsReadPciConfiguration s f.bus f.dev f.func reg.toUInt32 16).1 =
        some (pciReadU16 s f.bus f.dev f.func reg).1.toUInt64
  | acpiRead32 reg =>
      (acpiOsReadPciConfiguration s f.bus f.dev f.func reg.toUInt32 32).1 =
        some (pciReadU32 s f.bus f.dev f.func reg).1.toUInt64

/-- The first register of the word with the register. -/
def wordStart (reg : UInt8) : Nat := reg.toNat / 4 * 4

/-- The other bytes of the word are zero, and so is what is written unless it is written to the front of the
word. -/
def NarrowWrite (mem : Memory) (reg : UInt8) (n val : Nat) : Prop :=
  (∀ x, wordStart reg ≤ x → x < wordStart reg + 4 → x < reg.toNat ∨ reg.toNat + n ≤ x → mem x = 0) ∧
    (reg.toNat % 4 ≠ 0 → val = 0)

/-- The condition for an access: a narrow write finds zeros beside it, and what ACPI reads is also at the front
of the word. -/
def PciAccess.Harmless (mem : Memory) : PciAccess → Prop
  | writeU8 reg val => NarrowWrite mem reg 1 val.toNat
  | writeU16 reg val => NarrowWrite mem reg 2 val.toNat
  | acpiRead8 reg => mem.load (wordStart reg) 1 = mem.load reg.toNat 1
  | acpiRead16 reg => mem.load (wordStart reg) 2 = mem.load reg.toNat 2
  | readU8 _ | readU16 _ | readU32 _ | writeU32 _ _ | acpiRead32 _ => True

/-! ## Addresses -/

section Address

variable {s : PciBus} {f : PciFunction} {reg : UInt8}

/-- A number below a power of two is put beside a multiple of it by `|`. -/
theorem or_eq_add {a b : Nat} (i : Nat) (ha : 2 ^ i ∣ a) (hb : b < 2 ^ i) : a ||| b = a + b := by
  obtain ⟨c, rfl⟩ := ha
  exact (Nat.two_pow_add_eq_or_of_lt hb c).symm

theorem pciAddress_toNat (f : PciFunction) {offset : UInt32} (ho : (offset &&& 0xfc).toNat < 2 ^ 8) :
    (pciAddress f.bus.toUInt32 f.dev.toUInt32 f.func.toUInt32 offset).toNat =
      2 ^ 31 + f.number * 2 ^ 8 + (offset &&& 0xfc).toNat := by
  have hbus := f.bus.toNat_lt
  have hdev := f.dev_lt
  have hfunc := f.func_lt
  have hshift : ∀ (x : UInt8) (k : UInt32), k.toNat < 24 →
      (x.toUInt32 <<< k).toNat = x.toNat * 2 ^ k.toNat := by
    intro x k hk
    have hx := x.toNat_lt
    have hlt : x.toNat * 2 ^ k.toNat < 2 ^ 32 := by
      calc x.toNat * 2 ^ k.toNat < 2 ^ 8 * 2 ^ k.toNat := by gcongr
        _ ≤ 2 ^ 8 * 2 ^ 24 := by
          gcongr
          omega
        _ = 2 ^ 32 := by norm_num
    rw [UInt32.toNat_shiftLeft, UInt8.toNat_toUInt32, Nat.mod_eq_of_lt (show k.toNat < 32 by omega),
      Nat.shiftLeft_eq, Nat.mod_eq_of_lt hlt]
  have henable : pciEnable.toNat = 2 ^ 31 := rfl
  rw [pciAddress, UInt32.toNat_or, UInt32.toNat_or, UInt32.toNat_or, UInt32.toNat_or, henable,
    hshift _ 16 (by decide), hshift _ 11 (by decide), hshift _ 8 (by decide)]
  have h16 : (16 : UInt32).toNat = 16 := rfl
  have h11 : (11 : UInt32).toNat = 11 := rfl
  have h8 : (8 : UInt32).toNat = 8 := rfl
  have hb : 2 ^ 31 ||| f.bus.toNat * 2 ^ 16 = 2 ^ 31 + f.bus.toNat * 2 ^ 16 :=
    or_eq_add 31 dvd_rfl (by omega)
  have hd : 2 ^ 31 + f.bus.toNat * 2 ^ 16 ||| f.dev.toNat * 2 ^ 11 =
      2 ^ 31 + f.bus.toNat * 2 ^ 16 + f.dev.toNat * 2 ^ 11 := or_eq_add 16 (by omega) (by omega)
  have hf : 2 ^ 31 + f.bus.toNat * 2 ^ 16 + f.dev.toNat * 2 ^ 11 ||| f.func.toNat * 2 ^ 8 =
      2 ^ 31 + f.bus.toNat * 2 ^ 16 + f.dev.toNat * 2 ^ 11 + f.func.toNat * 2 ^ 8 :=
    or_eq_add 11 (by omega) (by omega)
  have ho' : 2 ^ 31 + f.bus.toNat * 2 ^ 16 + f.dev.toNat * 2 ^ 11 + f.func.toNat * 2 ^ 8 |||
      (offset &&& 0xfc).toNat =
        2 ^ 31 + f.bus.toNat * 2 ^ 16 + f.dev.toNat * 2 ^ 11 + f.func.toNat * 2 ^ 8 +
          (offset &&& 0xfc).toNat := or_eq_add 8 (by omega) ho
  rw [h16, h11, h8, hb, hd, hf, ho', PciFunction.number]
  omega

/-- The bridge after an address was written to it. -/
structure Addressed (s s' : PciBus) (f : PciFunction) (a : Nat) : Prop where
  enabled : s'.enabled = true
  function : s'.function = f.number
  register : s'.register = a / 4 * 4
  config : s'.config = s.config

theorem outl_addressed (s : PciBus) (f : PciFunction) (offset : UInt32)
    (ho : (offset &&& 0xfc).toNat < 2 ^ 8) :
    Addressed s (s.outl pciConfigAddr
      (pciAddress f.bus.toUInt32 f.dev.toUInt32 f.func.toUInt32 offset)) f (offset &&& 0xfc).toNat := by
  have hbus := f.bus.toNat_lt
  have hdev := f.dev_lt
  have hfunc := f.func_lt
  have haddr := pciAddress_toNat f ho
  rw [PciBus.outl, if_pos rfl]
  constructor
  case enabled =>
    rw [PciBus.enabled, haddr]
    exact decide_eq_true (by omega)
  case function =>
    rw [PciBus.function, haddr]
    rw [PciFunction.number] at *
    omega
  case register =>
    rw [PciBus.register, haddr]
    omega
  case config => rfl

/-- A read of a word. -/
theorem getPciFieldU32_eq (s : PciBus) (f : PciFunction) {offset : UInt32} {a : Nat}
    (ha : (offset &&& 0xfc).toNat = a / 4 * 4) (hlt : a < 2 ^ 8) :
    (getPciFieldU32 s f.bus.toUInt32 f.dev.toUInt32 f.func.toUInt32 offset).1.toNat =
        (s.config f.number).load (a / 4 * 4) 4 ∧
      (getPciFieldU32 s f.bus.toUInt32 f.dev.toUInt32 f.func.toUInt32 offset).2.config = s.config := by
  have hto := outl_addressed s f offset (by omega)
  rw [getPciFieldU32]
  refine ⟨?_, hto.config⟩
  have hword : (offset &&& 0xfc).toNat / 4 * 4 = a / 4 * 4 := by omega
  have hload := (s.config f.number).load_lt (a / 4 * 4) 4
  rw [PciBus.inl, if_neg (by decide), if_pos ⟨rfl, hto.enabled⟩, hto.function, hto.register, hto.config,
    hword, UInt32.toNat_ofNat_of_lt' (by simpa using hload)]

/-- A write of a word. -/
theorem setPciFieldU32_config (s : PciBus) (f : PciFunction) {offset : UInt32} {a : Nat}
    (ha : (offset &&& 0xfc).toNat = a / 4 * 4) (hlt : a < 2 ^ 8) (val : UInt32) :
    (setPciFieldU32 s f.bus.toUInt32 f.dev.toUInt32 f.func.toUInt32 offset val).config =
      Function.update s.config f.number ((s.config f.number).store (a / 4 * 4) 4 val.toNat) := by
  have hto := outl_addressed s f offset (by omega)
  have hword : (offset &&& 0xfc).toNat / 4 * 4 = a / 4 * 4 := by omega
  rw [setPciFieldU32]
  generalize s.outl pciConfigAddr _ = s' at hto
  rw [PciBus.outl, if_neg (by decide), if_pos ⟨rfl, hto.enabled⟩, hto.function, hto.register, hto.config,
    hword]

end Address

/-! ## Registers -/

section Registers

variable {s : PciBus} {f : PciFunction}

/-- What holds of the 256 registers holds of every register. -/
theorem forall_register {P : UInt8 → Prop} (h : ∀ n < 256, P (UInt8.ofNat n)) (reg : UInt8) : P reg := by
  have hreg := h reg.toNat reg.toNat_lt
  rwa [UInt8.ofNat_toNat] at hreg

theorem mask_register (reg : UInt8) : (reg.toUInt32 &&& 0xfc).toNat = wordStart reg := by
  apply forall_register (P := fun reg => (reg.toUInt32 &&& 0xfc).toNat = wordStart reg)
  decide +kernel

theorem mask_halfword (reg : UInt8) :
    (reg.toUInt32 &&& ~~~3 &&& 0xfc).toNat = wordStart reg ∧
      ((reg.toUInt32 &&& 2) * 8).toNat = reg.toNat % 4 / 2 * 16 := by
  apply forall_register (P := fun reg => (reg.toUInt32 &&& ~~~3 &&& 0xfc).toNat = wordStart reg ∧
    ((reg.toUInt32 &&& 2) * 8).toNat = reg.toNat % 4 / 2 * 16)
  decide +kernel

theorem mask_byte (reg : UInt8) :
    (reg.toUInt32 &&& ~~~1 &&& ~~~3 &&& 0xfc).toNat = wordStart reg ∧
      ((reg.toUInt32 &&& ~~~1 &&& 2) * 8).toNat = reg.toNat % 4 / 2 * 16 ∧
      ((reg.toUInt32 &&& 1) * 8).toNat = reg.toNat % 2 * 8 := by
  apply forall_register (P := fun reg =>
    (reg.toUInt32 &&& ~~~1 &&& ~~~3 &&& 0xfc).toNat = wordStart reg ∧
      ((reg.toUInt32 &&& ~~~1 &&& 2) * 8).toNat = reg.toNat % 4 / 2 * 16 ∧
      ((reg.toUInt32 &&& 1) * 8).toNat = reg.toNat % 2 * 8)
  decide +kernel

theorem two_pow_bytes (n : Nat) : 2 ^ (n * 8) = 256 ^ n := by
  rw [Nat.mul_comm, pow_mul]
  norm_num

/-- A read of half a word. -/
theorem getPciFieldU16_eq (s : PciBus) (f : PciFunction) {offset : UInt32} {a : Nat}
    (ha : (offset &&& ~~~3 &&& 0xfc).toNat = a / 4 * 4) (hshift : ((offset &&& 2) * 8).toNat = a % 4 / 2 * 16)
    (hlt : a < 2 ^ 8) :
    (getPciFieldU16 s f.bus.toUInt32 f.dev.toUInt32 f.func.toUInt32 offset).1.toNat =
        (s.config f.number).load (a / 2 * 2) 2 ∧
      (getPciFieldU16 s f.bus.toUInt32 f.dev.toUInt32 f.func.toUInt32 offset).2.config = s.config := by
  obtain ⟨hvalue, hconfig⟩ := getPciFieldU32_eq s f ha hlt
  refine ⟨?_, hconfig⟩
  have hshift' : ((offset &&& 2) * 8).toNat % 32 = a % 4 / 2 * 2 * 8 := by omega
  have hwindow : (s.config f.number).load (a / 4 * 4) 4 / 256 ^ (a % 4 / 2 * 2) % 256 ^ 2 =
      (s.config f.number).load (a / 4 * 4 + a % 4 / 2 * 2) 2 := Memory.load_window (by omega)
  rw [getPciFieldU16, UInt32.toNat_toUInt16, UInt32.toNat_shiftRight, hvalue, hshift',
    Nat.shiftRight_eq_div_pow, two_pow_bytes]
  rw [show a / 4 * 4 + a % 4 / 2 * 2 = a / 2 * 2 by omega] at hwindow
  exact hwindow

/-- `pci_read_u8` returns the byte at its register. -/
theorem pciReadU8_eq (s : PciBus) (f : PciFunction) (reg : UInt8) :
    (pciReadU8 s f.bus f.dev f.func reg).1.toNat = (s.config f.number).load reg.toNat 1 ∧
      (pciReadU8 s f.bus f.dev f.func reg).2.config = s.config := by
  obtain ⟨hmask, hhigh, hlow⟩ := mask_byte reg
  obtain ⟨hvalue, hconfig⟩ := getPciFieldU16_eq s f hmask hhigh reg.toNat_lt
  refine ⟨?_, hconfig⟩
  have hshift : ((reg.toUInt32 &&& 1) * 8).toNat % 32 = reg.toNat % 2 * 8 := by omega
  have hwindow : (s.config f.number).load (reg.toNat / 2 * 2) 2 / 256 ^ (reg.toNat % 2) % 256 ^ 1 =
      (s.config f.number).load (reg.toNat / 2 * 2 + reg.toNat % 2) 1 := Memory.load_window (by omega)
  rw [pciReadU8, getPciFieldU8, UInt32.toNat_toUInt8, UInt32.toNat_shiftRight, UInt16.toNat_toUInt32,
    hvalue, hshift, Nat.shiftRight_eq_div_pow, two_pow_bytes]
  rw [show reg.toNat / 2 * 2 + reg.toNat % 2 = reg.toNat by omega] at hwindow
  exact hwindow

/-- `pci_read_u16` returns the bytes of the half word with its register. -/
theorem pciReadU16_eq (s : PciBus) (f : PciFunction) (reg : UInt8) :
    (pciReadU16 s f.bus f.dev f.func reg).1.toNat = (s.config f.number).load (reg.toNat / 2 * 2) 2 ∧
      (pciReadU16 s f.bus f.dev f.func reg).2.config = s.config := by
  obtain ⟨hmask, hshift⟩ := mask_halfword reg
  exact getPciFieldU16_eq s f hmask hshift reg.toNat_lt

/-- `pci_read_u32` returns the bytes of the word with its register. -/
theorem pciReadU32_eq (s : PciBus) (f : PciFunction) (reg : UInt8) :
    (pciReadU32 s f.bus f.dev f.func reg).1.toNat = (s.config f.number).load (wordStart reg) 4 ∧
      (pciReadU32 s f.bus f.dev f.func reg).2.config = s.config :=
  getPciFieldU32_eq s f (mask_register reg) reg.toNat_lt

/-- A number whose digits are all zero. -/
theorem eq_zero_of_digits {n val : Nat} (hlt : val < 256 ^ n) (h : ∀ i < n, val / 256 ^ i % 256 = 0) :
    val = 0 := by
  have hload : Memory.load (fun _ => 0) 0 n = val % 256 ^ n := Memory.load_of_digits fun i hi => (h i hi).symm
  have hzero : Memory.load (fun _ => 0) 0 n = 0 % 256 ^ n := by
    apply Memory.load_of_digits
    intro i _
    rw [Nat.zero_div, Nat.zero_mod]
    rfl
  rw [Nat.mod_eq_of_lt hlt, hzero, Nat.zero_mod] at hload
  exact hload.symm

/-- The digits above a number are zero. -/
theorem digit_of_le {n val i : Nat} (hlt : val < 256 ^ n) (hle : n ≤ i) : val / 256 ^ i = 0 := by
  apply Nat.div_eq_of_lt
  exact hlt.trans_le (Nat.pow_le_pow_right (by norm_num) hle)

/-- A number that is shifted by some digits and unchanged is zero. -/
theorem eq_zero_of_shift {n k val : Nat} (hlt : val < 256 ^ n) (hk : 0 < k)
    (h : ∀ i < n, val / 256 ^ (i + k) % 256 = val / 256 ^ i % 256) : val = 0 := by
  apply eq_zero_of_digits hlt
  -- A digit is the digit `k` places above it, and the digits from `n` on are zero.
  have hdown : ∀ m i, n ≤ i + m → val / 256 ^ i % 256 = 0 := by
    intro m
    induction m with
    | zero =>
        intro i hle
        rw [digit_of_le (i := i) hlt hle, Nat.zero_mod]
    | succ m ih =>
        intro i hle
        by_cases hi : i < n
        · rw [← h i hi]
          exact ih (i + k) (by omega)
        · rw [digit_of_le hlt (by omega), Nat.zero_mod]
  exact fun i _ => hdown n i (by omega)

/-- A word that is stored over a word is what a narrow store leaves, just when the bytes beside are zero. -/
theorem store_word_iff (mem : Memory) {n : Nat} (reg : UInt8) (val : Nat)
    (hwide : reg.toNat % 4 + n ≤ 4) (hval : val < 256 ^ n) :
    mem.store (wordStart reg) 4 val = mem.store reg.toNat n val ↔ NarrowWrite mem reg n val := by
  have hstart : reg.toNat = wordStart reg + reg.toNat % 4 := by
    rw [wordStart]
    omega
  constructor
  · intro heq
    have hzero : reg.toNat % 4 ≠ 0 → val = 0 := by
      intro hoff
      apply eq_zero_of_shift (k := reg.toNat % 4) hval (by omega)
      intro i hi
      have hbyte := congrArg UInt8.toNat (congrFun heq (reg.toNat + i))
      rw [Memory.store, Memory.store, if_pos ⟨by omega, by omega⟩, if_pos ⟨by omega, by omega⟩,
        UInt8.toNat_ofNat', UInt8.toNat_ofNat', Nat.add_sub_cancel_left,
        show reg.toNat + i - wordStart reg = i + reg.toNat % 4 by omega] at hbyte
      exact hbyte
    refine ⟨?_, hzero⟩
    intro x hle hlt hside
    have hbyte := congrFun heq x
    rw [Memory.store_of_outside hside, Memory.store, if_pos ⟨hle, hlt⟩] at hbyte
    by_cases hoff : reg.toNat % 4 = 0
    · rw [← hbyte, digit_of_le hval (by omega)]
      rfl
    · rw [← hbyte, hzero hoff, Nat.zero_div]
      rfl
  · rintro ⟨hside, hzero⟩
    funext x
    by_cases hword : wordStart reg ≤ x ∧ x < wordStart reg + 4
    · have hdigit : mem.store (wordStart reg) 4 val x = UInt8.ofNat (val / 256 ^ (x - wordStart reg)) := by
        rw [Memory.store, if_pos hword]
      by_cases hin : reg.toNat ≤ x ∧ x < reg.toNat + n
      · rw [hdigit, Memory.store, if_pos hin]
        by_cases hoff : reg.toNat % 4 = 0
        · rw [show wordStart reg = reg.toNat by omega]
        · rw [hzero hoff, Nat.zero_div, Nat.zero_div]
      · rw [hdigit, Memory.store_of_outside (by omega), hside x hword.1 hword.2 (by omega)]
        by_cases hoff : reg.toNat % 4 = 0
        · rw [digit_of_le hval (by omega)]
          rfl
        · rw [hzero hoff, Nat.zero_div]
          rfl
    · rw [Memory.store_of_outside (by omega), Memory.store_of_outside (by omega)]

/-- The register that ACPI reads. -/
theorem acpi_register (reg : UInt8) : (reg.toUInt32 &&& ~~~3).toUInt8.toNat = wordStart reg := by
  apply forall_register (P := fun reg => (reg.toUInt32 &&& ~~~3).toUInt8.toNat = wordStart reg)
  decide +kernel

end Registers

/-! ## All accesses -/

section Accesses

variable {s s' : PciBus} {f : PciFunction}

/-- A word was stored, and what is promised is a narrow store. -/
theorem stored_iff {reg : UInt8} {n val : Nat} (hwide : reg.toNat % 4 + n ≤ 4) (hval : val < 256 ^ n)
    (hconfig : s'.config =
      Function.update s.config f.number ((s.config f.number).store (wordStart reg) 4 val)) :
    s.Stored s' f reg.toNat n val ↔ NarrowWrite (s.config f.number) reg n val := by
  rw [PciBus.Stored, hconfig, (Function.update_injective s.config f.number).eq_iff]
  exact store_word_iff (s.config f.number) reg val hwide hval

/-- An aligned register is the front of its word. -/
theorem wordStart_of_aligned {reg : UInt8} (h : reg.toNat % 4 = 0) : wordStart reg = reg.toNat :=
  Nat.div_mul_cancel (Nat.dvd_of_mod_eq_zero h)

theorem pciReadU16_aligned (s : PciBus) (f : PciFunction) {reg : UInt8} (h : reg.toNat % 2 = 0) :
    (pciReadU16 s f.bus f.dev f.func reg).1.toNat = (s.config f.number).load reg.toNat 2 ∧
      (pciReadU16 s f.bus f.dev f.func reg).2.config = s.config := by
  have hread := pciReadU16_eq s f reg
  rwa [Nat.div_mul_cancel (Nat.dvd_of_mod_eq_zero h)] at hread

/-- ACPI reads a byte at the front of the word. -/
theorem acpiRead8_right_iff (s : PciBus) (f : PciFunction) (reg : UInt8) :
    (PciAccess.acpiRead8 reg).Right s f ↔ (PciAccess.acpiRead8 reg).Harmless (s.config f.number) := by
  have hreg := (pciReadU8_eq s f reg).1
  have hfront := (pciReadU8_eq s f (reg.toUInt32 &&& ~~~3).toUInt8).1
  rw [acpi_register] at hfront
  rw [PciAccess.Right, PciAccess.Harmless, acpiOsReadPciConfiguration, if_pos rfl, ← hreg, ← hfront]
  simp only [Option.some.injEq, ← UInt64.toNat_inj, UInt8.toNat_toUInt64]

/-- ACPI reads two bytes at the front of the word. -/
theorem acpiRead16_right_iff (s : PciBus) (f : PciFunction) {reg : UInt8} (h : reg.toNat % 2 = 0) :
    (PciAccess.acpiRead16 reg).Right s f ↔ (PciAccess.acpiRead16 reg).Harmless (s.config f.number) := by
  have heven : (reg.toUInt32 &&& ~~~3).toUInt8.toNat % 2 = 0 := by
    rw [acpi_register, wordStart]
    omega
  have hreg := (pciReadU16_aligned s f h).1
  have hfront := (pciReadU16_aligned s f heven).1
  rw [acpi_register] at hfront
  rw [PciAccess.Right, PciAccess.Harmless, acpiOsReadPciConfiguration, if_neg (by decide), if_pos rfl,
    ← hreg, ← hfront]
  simp only [Option.some.injEq, ← UInt64.toNat_inj, UInt16.toNat_toUInt64]

/-- ACPI reads an aligned word where it is. -/
theorem acpiRead32_right (s : PciBus) (f : PciFunction) {reg : UInt8} (h : reg.toNat % 4 = 0) :
    (PciAccess.acpiRead32 reg).Right s f := by
  have hstart : (reg.toUInt32 &&& ~~~3).toUInt8 = reg := by
    apply UInt8.toNat_inj.mp
    rw [acpi_register, wordStart_of_aligned h]
  rw [PciAccess.Right, acpiOsReadPciConfiguration, if_neg (by decide), if_neg (by decide), if_pos rfl,
    hstart]

/-- An access to an aligned register is right just when a narrow write finds zeros beside it, and what ACPI
reads is also at the front of the word. -/
theorem pci_access_right_iff (s : PciBus) (f : PciFunction) (a : PciAccess) (h : a.Aligned) :
    a.Right s f ↔ a.Harmless (s.config f.number) := by
  cases a with
  | readU8 reg => exact iff_of_true (pciReadU8_eq s f reg) trivial
  | readU16 reg => exact iff_of_true (pciReadU16_aligned s f h) trivial
  | readU32 reg =>
      have hread := pciReadU32_eq s f reg
      rw [wordStart_of_aligned h] at hread
      exact iff_of_true hread trivial
  | writeU8 reg val =>
      exact stored_iff (by omega) val.toNat_lt
        (setPciFieldU32_config s f (mask_register reg) reg.toNat_lt val.toUInt32)
  | writeU16 reg val =>
      rw [PciAccess.Aligned] at h
      exact stored_iff (by omega) val.toNat_lt
        (setPciFieldU32_config s f (mask_register reg) reg.toNat_lt val.toUInt32)
  | writeU32 reg val =>
      have hwrite := setPciFieldU32_config s f (mask_register reg) reg.toNat_lt val
      have hstart : reg.toNat / 4 * 4 = reg.toNat := wordStart_of_aligned h
      rw [hstart] at hwrite
      exact iff_of_true hwrite trivial
  | acpiRead8 reg => exact acpiRead8_right_iff s f reg
  | acpiRead16 reg => exact acpiRead16_right_iff s f h
  | acpiRead32 reg => exact iff_of_true (acpiRead32_right s f h) trivial

/-- The first function of the first device. -/
def firstFunction : PciFunction where
  bus := 0
  dev := 0
  func := 0
  dev_lt := by decide
  func_lt := by decide

/-- A bridge whose configuration spaces hold ones. -/
def onesBus : PciBus where
  address := 0
  config _ _ := 1

/-- A bridge with one half of each word used. -/
def halfBus : PciBus where
  address := 0
  config _ x := if x % 4 < 2 then 7 else 0

/-- The used half of a word is written without harm, and ACPI reads the second byte like the first. -/
theorem half_word_right :
    (PciAccess.writeU16 8 0x1234).Right halfBus firstFunction ∧
      (PciAccess.acpiRead8 9).Right halfBus firstFunction := by
  constructor
  · refine (pci_access_right_iff halfBus firstFunction (.writeU16 8 0x1234) (show _ = _ by decide)).mpr ⟨?_, ?_⟩
    · intro x hlow hhigh hout
      have hstart : wordStart 8 = 8 := by decide
      have hreg : (8 : UInt8).toNat = 8 := rfl
      rw [hstart] at hlow hhigh
      rw [hreg] at hout
      have hunused : ¬ x % 4 < 2 := by omega
      exact if_neg hunused
    · exact fun hfront => absurd rfl hfront
  · exact (pci_access_right_iff halfBus firstFunction (.acpiRead8 9) trivial).mpr (show _ = _ by decide)

/-- A byte that is written clears its neighbours. -/
theorem narrow_write_clears : ¬ ∀ (s : PciBus) (f : PciFunction) (a : PciAccess), a.Aligned → a.Right s f := by
  intro hall
  have hright := hall onesBus firstFunction (.writeU8 0 0) trivial
  have hbyte := congrFun (congrFun hright 0) 1
  exact absurd hbyte (by decide)

end Accesses

end Drivers
end Micael
