import Mathlib.Tactic
import Micael.Fs.Initramfs

/-!
# Directories and files of a directory

A directory of the initramfs lists headers of directories and headers of files, which have their magic
numbers at different places.  `initramfs_inode_lookup` tests for a directory first, and the place it tests
is behind the header of a file: what a file is taken for depends on its contents.  The size and the number
of an inode are `int`s and those of a header are not.

A header is described by what stands in it.  What lies behind a header, the contents of a file among it, is
arbitrary.

Main results:

- Theorem {lit}`lookupLoop_header`: what the loop makes of the header with the name.
- Theorem {lit}`lookup_classified_iff`: when a lookup returns what stands in the header with the name.
-/

namespace Micael
namespace Fs

open Foundation Kernel Toolchain

/-! ## Headers in a directory -/

/-- What stands in the header of a directory or of a file. -/
structure RamHeader where
  name : List UInt8
  type : RamType
  size : UInt32
  inode : UInt32
deriving DecidableEq, Repr

/-- Where the number of the inode stands in a header: in front of the magic number. -/
def RamType.inodeAt : RamType → Nat
  | .dir => 72
  | .reg => 68

/-- The magic number of a header. -/
def RamType.magic : RamType → Nat
  | .dir => dirMagic
  | .reg => fileMagic

/-- A header in memory. -/
structure HeaderAt (mem : Memory) (a : Nat) (header : RamHeader) : Prop where
  name_eq : mem.HoldsAt a (header.name ++ [0])
  no_zero : 0 ∉ header.name
  size_eq : mem.load (a + 64) 4 = header.size.toNat
  inode_eq : mem.load (a + header.type.inodeAt) 4 = header.inode.toNat
  magic_eq : mem.load (a + header.type.inodeAt + 4) 4 = header.type.magic

instance (mem : Memory) (a : Nat) (header : RamHeader) : Decidable (HeaderAt mem a header) :=
  decidable_of_iff
    (mem.HoldsAt a (header.name ++ [0]) ∧ 0 ∉ header.name ∧
      mem.load (a + 64) 4 = header.size.toNat ∧
      mem.load (a + header.type.inodeAt) 4 = header.inode.toNat ∧
      mem.load (a + header.type.inodeAt + 4) 4 = header.type.magic)
    ⟨fun h => ⟨h.1, h.2.1, h.2.2.1, h.2.2.2.1, h.2.2.2.2⟩, fun h => ⟨h.1, h.2, h.3, h.4, h.5⟩⟩

/-- The offset of the `i`th header in a directory. -/
def fileOffset (mem : Memory) (d i : Nat) : Nat := mem.load (d + 80 + 4 * i) 4

/-- A directory in memory that lists these headers, with distinct names. -/
structure Listed (mem : Memory) (d : Nat) (headers : List RamHeader) : Prop where
  numFiles_eq : mem.load (d + 68) 4 = headers.length
  header_at : ∀ i (hi : i < headers.length), HeaderAt mem (d + fileOffset mem d i) headers[i]
  distinct : (headers.map RamHeader.name).Nodup

/-- An inode has the type, the size and the number of a header. -/
def RamInode.Describes (ino : RamInode) (header : RamHeader) : Prop :=
  ino.type = header.type ∧ ino.size = header.size.toNat ∧ ino.ino = header.inode.toNat

/-- A lookup returns an inode for the header with the name, and `ENOENT` when there is none. -/
def Classified (mem : Memory) (parent : RamInode) (headers : List RamHeader) (name : List UInt8) :
    Prop :=
  (∀ header ∈ headers, header.name = name →
    ∃ ino, initramfsInodeLookup mem (some parent) (some name) = .ok ino ∧ ino.Describes header) ∧
  ((∀ header ∈ headers, header.name ≠ name) →
    initramfsInodeLookup mem (some parent) (some name) = .error .enoent)

/-- The header at an address is kept by its inode: its numbers are `int`s, and the four bytes behind a
file's header are not the magic number of a directory. -/
def RamHeader.Recognised (mem : Memory) (a : Nat) (header : RamHeader) : Prop :=
  header.size.toNat < 2 ^ 31 ∧ header.inode.toNat < 2 ^ 31 ∧
    (header.type = .reg → mem.load (a + fileHeaderSize) 4 ≠ dirMagic)

instance (mem : Memory) (a : Nat) (header : RamHeader) : Decidable (header.Recognised mem a) :=
  inferInstanceAs (Decidable (_ ∧ _ ∧ (_ → _)))

/-! ## The loop -/

section Loop

variable {mem : Memory} {a d i : Nat} {header : RamHeader}

/-- One turn of the loop. -/
theorem lookupLoop_turn (name : List UInt8) (rest : Nat) :
    lookupLoop mem d name (rest + 1) i =
      if mem.load (d + fileOffset mem d i + 76) 4 = dirMagic ∧
          kstrcmpS mem (d + fileOffset mem d i) name then
        some ⟨fileOffset mem d i, mem.load (d + fileOffset mem d i + 72) 4,
          mem.load (d + fileOffset mem d i + 64) 4, .dir⟩
      else if mem.load (d + fileOffset mem d i + 72) 4 = fileMagic ∧
          kstrcmpS mem (d + fileOffset mem d i) name then
        some ⟨fileOffset mem d i, mem.load (d + fileOffset mem d i + 68) 4,
          mem.load (d + fileOffset mem d i + 64) 4, .reg⟩
      else lookupLoop mem d name rest (i + 1) := by
  rw [lookupLoop]
  rfl

/-- The loop at the header with the name. -/
theorem lookupLoop_header (h : HeaderAt mem (d + fileOffset mem d i) header)
    (hsame : kstrcmpS mem (d + fileOffset mem d i) header.name = true) (rest : Nat) :
    ∃ entry, lookupLoop mem d header.name (rest + 1) i = some entry ∧
      entry.size = header.size.toNat ∧
      (entry.type = header.type ↔
        (header.type = .reg → mem.load (d + fileOffset mem d i + fileHeaderSize) 4 ≠ dirMagic)) ∧
      (entry.type = header.type → entry.ino = header.inode.toNat) := by
  have hsize := h.size_eq
  have hinode := h.inode_eq
  have hmagic := h.magic_eq
  rw [lookupLoop_turn, hsame, hsize]
  cases htype : header.type with
  | dir =>
      simp only [htype, RamType.inodeAt, RamType.magic] at hinode hmagic
      rw [if_pos ⟨hmagic, rfl⟩]
      refine ⟨_, rfl, rfl, iff_of_true rfl ?_, fun _ => hinode⟩
      intro hreg
      cases hreg
  | reg =>
      simp only [htype, RamType.inodeAt, RamType.magic] at hinode hmagic
      by_cases hcontents : mem.load (d + fileOffset mem d i + 76) 4 = dirMagic
      · -- The contents of the file begin with the magic number of a directory.
        rw [if_pos ⟨hcontents, rfl⟩]
        refine ⟨_, rfl, rfl, iff_of_false (fun h => RamType.noConfusion h) ?_, ?_⟩
        · exact fun hclear => hclear rfl hcontents
        · intro hfalse
          cases hfalse
      · rw [if_neg fun hdir => hcontents hdir.1, if_pos ⟨hmagic, rfl⟩]
        exact ⟨_, rfl, rfl, iff_of_true rfl fun _ => hcontents, fun _ => hinode⟩

end Loop

/-! ## The lookup -/

section Lookup

variable {mem : Memory} {parent : RamInode} {headers : List RamHeader}

theorem intOfU32_eq_self_iff (n : UInt32) : intOfU32 n.toNat = n.toNat ↔ n.toNat < 2 ^ 31 := by
  have hcast := intOfU32_eq_iff (n := n.toNat)
  rwa [u32_eq_of_lt n.toNat_lt] at hcast

/-- The name in a listed header is compared with the one that is looked up. -/
theorem Listed.compare (h : Listed mem parent.vstart headers) {name : List UInt8} (hname : 0 ∉ name)
    {i : Nat} (hi : i < headers.length) :
    kstrcmpS mem (parent.vstart + fileOffset mem parent.vstart i) name = true ↔
      headers[i].name = name :=
  kstrcmpS_iff (h.header_at i hi).name_eq (h.header_at i hi).no_zero hname

/-- A name that stands in no header is not found. -/
theorem Listed.lookup_absent (h : Listed mem parent.vstart headers) (htype : parent.type = .dir)
    {name : List UInt8} (hname : 0 ∉ name) (habsent : ∀ header ∈ headers, header.name ≠ name) :
    initramfsInodeLookup mem (some parent) (some name) = .error .enoent := by
  have hskip : ∀ j < headers.length,
      kstrcmpS mem (parent.vstart + mem.load (parent.vstart + 80 + 4 * (0 + j)) 4) name = false := by
    intro j hj
    rw [Nat.zero_add, Bool.eq_false_iff]
    intro hequal
    exact habsent _ (List.getElem_mem hj) ((h.compare hname hj).mp hequal)
  rw [initramfsInodeLookup, if_neg (not_not.mpr htype), h.numFiles_eq,
    lookupLoop_skip le_rfl hskip, Nat.sub_self]
  rfl

/-- The lookup of a name that stands in a header. -/
theorem Listed.lookup_present (h : Listed mem parent.vstart headers) (htype : parent.type = .dir)
    {k : Nat} (hk : k < headers.length) :
    ∃ ino, initramfsInodeLookup mem (some parent) (some headers[k].name) = .ok ino ∧
      (ino.Describes headers[k] ↔
        headers[k].Recognised mem (parent.vstart + fileOffset mem parent.vstart k)) := by
  have hcompare : ∀ i (hi : i < headers.length), ∀ header ∈ headers,
      kstrcmpS mem (parent.vstart + fileOffset mem parent.vstart i) header.name = true ↔
        headers[i].name = header.name := by
    intro i hi header hmem
    obtain ⟨j, hj, rfl⟩ := List.mem_iff_getElem.mp hmem
    exact h.compare (h.header_at j hj).no_zero hi
  obtain ⟨hsame, rest, hloop⟩ :=
    lookupLoop_reaches RamHeader.name h.distinct (fun _ _ => rfl) hcompare hk
  obtain ⟨entry, hentry, hsize, hkind, hinode⟩ := lookupLoop_header (h.header_at k hk) hsame rest
  refine ⟨entry.inode parent, ?_, ?_⟩
  · rw [initramfsInodeLookup, if_neg (not_not.mpr htype), h.numFiles_eq, hloop, hentry]
  · simp only [RamInode.Describes, RamHeader.Recognised, ← hkind, RamEntry.inode, hsize,
      ← intOfU32_eq_self_iff]
    constructor
    · rintro ⟨htypes, hsizes, hinodes⟩
      rw [hinode htypes] at hinodes
      exact ⟨hsizes, hinodes, htypes⟩
    · rintro ⟨hsizes, hinodes, htypes⟩
      refine ⟨htypes, hsizes, ?_⟩
      rw [hinode htypes]
      exact hinodes

/-- In a directory whose headers have distinct names, a lookup returns what stands in the header with the
name just when its numbers are `int`s and it is not taken for a directory. -/
theorem lookup_classified_iff (h : Listed mem parent.vstart headers) (htype : parent.type = .dir)
    {name : List UInt8} (hname : 0 ∉ name) :
    Classified mem parent headers name ↔
      ∀ i (hi : i < headers.length), headers[i].name = name →
        headers[i].Recognised mem (parent.vstart + fileOffset mem parent.vstart i) := by
  constructor
  · rintro ⟨hpresent, -⟩ i hi rfl
    obtain ⟨ino, hlookup, hiff⟩ := h.lookup_present htype hi
    obtain ⟨ino', hlookup', hdescribes⟩ := hpresent _ (List.getElem_mem hi) rfl
    -- a lookup has one result
    obtain rfl : ino = ino' := Except.ok.inj (hlookup.symm.trans hlookup')
    exact hiff.mp hdescribes
  · intro hrecognised
    refine ⟨?_, h.lookup_absent htype hname⟩
    intro header hmem heq
    obtain ⟨i, hi, rfl⟩ := List.mem_iff_getElem.mp hmem
    obtain ⟨ino, hlookup, hiff⟩ := h.lookup_present htype hi
    rw [heq] at hlookup
    exact ⟨ino, hlookup, hiff.mpr (hrecognised i hi heq)⟩

end Lookup

/-! ## A file that is taken for a directory -/

/-- `/bin/ls` and `/bin/x`, and the contents of the second begin with the magic number of a directory. -/
def magicDirs : List InitrdDir :=
  [⟨[98, 105, 110], [⟨[108, 115], [4, 5]⟩, ⟨[120], [0xbe, 0xba, 0xfe, 0xca]⟩]⟩]

/-- `/bin` in the image. -/
def magicBin : RamInode := ⟨2, 158, .dir, 4228, 4228⟩

/-- What it lists. -/
def magicHeaders : List RamHeader := [⟨[108, 115], .reg, 2, 3⟩, ⟨[120], .reg, 4, 4⟩]

theorem magicBin_listed : Listed (imageMemory magicDirs 4096) magicBin.vstart magicHeaders where
  numFiles_eq := by decide +kernel
  header_at := by decide +kernel
  distinct := by decide

/-- The lookup of the second file returns a directory, and `FILE_MAGIC` for the number of its inode. -/
theorem magicFile_lookup :
    Listed (imageMemory magicDirs 4096) magicBin.vstart magicHeaders ∧
      initramfsInodeLookup (imageMemory magicDirs 4096) (some magicBin) (some [120]) =
        .ok ⟨-559038737, 4, .dir, 4406, 4406⟩ ∧
      ¬ Classified (imageMemory magicDirs 4096) magicBin magicHeaders [120] := by
  have hlookup : initramfsInodeLookup (imageMemory magicDirs 4096) (some magicBin) (some [120]) =
      .ok ⟨-559038737, 4, .dir, 4406, 4406⟩ := by
    decide +kernel
  refine ⟨magicBin_listed, hlookup, ?_⟩
  rintro ⟨hpresent, -⟩
  obtain ⟨ino, hino, htype, -⟩ := hpresent ⟨[120], .reg, 4, 4⟩ (by decide) rfl
  obtain rfl := Except.ok.inj (hlookup.symm.trans hino)
  cases htype

/-- The lookup of the first file. -/
theorem magicDirs_ls_classified :
    Classified (imageMemory magicDirs 4096) magicBin magicHeaders [108, 115] := by
  refine (lookup_classified_iff magicBin_listed rfl (by decide)).mpr ?_
  decide +kernel

end Fs
end Micael
