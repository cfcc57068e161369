import Micael.Fs.File
import Micael.Kernel.Util
import Micael.Mm.Bootmem
import Micael.Toolchain.Mkinitrd

/-!
# The file system of the initial ramdisk

`initramfs.c` serves the image that `mkinitrd` writes.  The root directory's header lies behind the disk
header; a lookup walks the offsets of a directory's header and compares the names of the headers it
finds there.  It decides by magic numbers whether a header is one of a directory or one of a file, and
the two stand at different places: for a file's header, the place of a directory's magic number are the
first four bytes behind it.

The image lies in memory, and what lies behind it is arbitrary.  Inodes and files are allocated from
caches that are taken not to be empty.

Main results:

- Theorem {lit}`lookupLoop_reaches`: the loop of a lookup gets to the header with the name.
- Theorem {lit}`lookup_dir`, {lit}`lookup_file`: what the lookups of a name in the image find.
- Theorem {lit}`initrd_round_trip_iff`: for directories whose offsets are right, every file is found and
  read back just when none is too large and none is taken for a directory.
-/

namespace Micael
namespace Fs

open Foundation Kernel Mm Toolchain

/-! ## Lookup and read -/

/-- `T_IFREG` and `T_IFDIR`. -/
inductive RamType where
  | reg
  | dir
deriving DecidableEq, Repr

/-- The inode of a file or directory of the ramdisk; `vstart` is null for a file. -/
structure RamInode where
  ino : Int
  size : Int
  type : RamType
  pstart : Nat
  vstart : Nat
deriving DecidableEq, Repr

/-- A `uint32_t` as an `int`. -/
def intOfU32 (n : Nat) : Int := (n : Int).bmod (2 ^ 32)

/-- Whether `kstrcmp_s` finds the string at `s1` equal to `s2`.  The length that it passes on is that of
the string at `s1`, whose end stops the loop as well. -/
def kstrcmpS (mem : Memory) : Nat → List UInt8 → Bool
  | s1, [] => mem s1 == 0
  | s1, c :: s2 =>
      if mem s1 = 0 then mem s1 == c
      else if mem s1 ≠ c then false
      else kstrcmpS mem (s1 + 1) s2

/-- What a lookup found: the offset of the header and the fields of it that it keeps. -/
structure RamEntry where
  offset : Nat
  ino : Nat
  size : Nat
  type : RamType
deriving DecidableEq, Repr

/-- The loop of `initramfs_inode_lookup` over the offsets of the header at `dh`, from the `i`th on. -/
def lookupLoop (mem : Memory) (dh : Nat) (name : List UInt8) : Nat → Nat → Option RamEntry
  | 0, _ => none
  | turns + 1, i =>
      let offset := mem.load (dh + 80 + 4 * i) 4
      let header := dh + offset
      if mem.load (header + 76) 4 = dirMagic ∧ kstrcmpS mem header name then
        some ⟨offset, mem.load (header + 72) 4, mem.load (header + 64) 4, .dir⟩
      else if mem.load (header + 72) 4 = fileMagic ∧ kstrcmpS mem header name then
        some ⟨offset, mem.load (header + 68) 4, mem.load (header + 64) 4, .reg⟩
      else lookupLoop mem dh name turns (i + 1)

/-- Whether a directory reaches over the end of the page that its parent starts in. -/
def RamEntry.Crosses (entry : RamEntry) (parent : RamInode) : Prop :=
  let parentStart := u32 parent.pstart
  let boundary := u32 (roundDown parentStart pageSize)
  let offStart := u32 (parentStart + entry.offset + 2 ^ 32 - boundary)
  pageSize < u32 (offStart + entry.size)

instance (entry : RamEntry) (parent : RamInode) : Decidable (entry.Crosses parent) :=
  inferInstanceAs (Decidable (_ < _))

/-- The inode for what was found. -/
def RamEntry.inode (entry : RamEntry) (parent : RamInode) : RamInode where
  ino := intOfU32 entry.ino
  size := intOfU32 entry.size
  type := entry.type
  pstart := parent.pstart + entry.offset
  vstart :=
    match entry.type with
    | .dir =>
        if entry.Crosses parent then parent.pstart + entry.offset else parent.vstart + entry.offset
    | .reg => 0

/-- `initramfs_inode_lookup`; null pointers are `none`. -/
def initramfsInodeLookup (mem : Memory) (parent : Option RamInode) (name : Option (List UInt8)) :
    Except Errno RamInode :=
  match parent, name with
  | some parent, some name =>
      if parent.type ≠ .dir then .error .enotdir
      else
        match lookupLoop mem parent.vstart name (mem.load (parent.vstart + 68) 4) 0 with
        | none => .error .enoent
        | some entry => .ok (entry.inode parent)
  | _, _ => .error .einval

/-- The inode of the root directory that `initramfs_init` makes for the image at `start`. -/
def initramfsInit (mem : Memory) (start len : Nat) : Except Errno RamInode :=
  if len = 0 ∨ mem.load (start + 4) 4 ≠ headerMagic then .error .enxio
  else .ok ⟨1, 0, .dir, start + diskHeaderSize, start + diskHeaderSize⟩

/-- An open file: its position, and of its inode the size and the start. -/
structure RamFile where
  pos : Int
  size : Int
  pstart : Nat
deriving DecidableEq, Repr

/-- `initramfs_file_open`. -/
def RamInode.openFile (ino : RamInode) (mode : Nat) : Except Errno RamFile :=
  if mode ≠ oRdonly then .error .enotsup
  else if ino.type ≠ .reg then .error .einval
  else .ok ⟨0, ino.size, ino.pstart⟩

/-- `file_generic_seek`; the size is compared as a `uint32_t`, and the `off_t` of 64 bits wrap. -/
def RamFile.seek (file : RamFile) (off : Int) : Except Errno RamFile :=
  if file.pos < ssizeOfInt (-off) ∨ file.size % 2 ^ 32 < ssizeOfInt (file.pos + off) then
    .error .espipe
  else .ok { file with pos := ssizeOfInt (file.pos + off) }

/-- `initramfs_file_read`: the number of bytes, the file and the buffer. -/
def initramfsFileRead (mem : Memory) (file : Option RamFile) (offset : Int) (count : Nat)
    (buf : Option Memory) : Except Errno (Nat × RamFile × Memory) :=
  match file, buf with
  | some file, some buf =>
      file.seek offset >>= fun file =>
        if file.size < ssizeOfInt (ssizeOfInt count + file.pos) then .error .e2big
        else .ok (count, file,
          kmemcpy buf 0 mem (file.pstart + fileHeaderSize + file.pos.toNat) count)
  | _, _ => .error .einval

/-! ## Strings and headers in memory -/

section Lookup

variable {mem : Memory} {a d : Nat}

/-- `kstrcmp_s` compares whole strings. -/
theorem kstrcmpS_iff {field name : List UInt8} (hheld : mem.HoldsAt a (field ++ [0]))
    (hfield : 0 ∉ field) (hname : 0 ∉ name) : kstrcmpS mem a name = true ↔ field = name := by
  induction name generalizing a field with
  | nil =>
      cases field with
      | nil =>
          have hbyte : mem a = 0 := hheld.apply (i := 0) (by simp)
          simp [kstrcmpS, hbyte]
      | cons c field =>
          have hbyte : mem a = c := hheld.apply (i := 0) (by simp)
          have hc : c ≠ 0 := fun h => hfield (h ▸ List.mem_cons_self ..)
          simp [kstrcmpS, hbyte, hc]
  | cons c' name ih =>
      have hc' : c' ≠ 0 := fun h => hname (h ▸ List.mem_cons_self ..)
      cases field with
      | nil =>
          have hbyte : mem a = 0 := hheld.apply (i := 0) (by simp)
          simp [kstrcmpS, hbyte, hc'.symm]
      | cons c field =>
          have hbyte : mem a = c := hheld.apply (i := 0) (by simp)
          have hc : c ≠ 0 := fun h => hfield (h ▸ List.mem_cons_self ..)
          have hrest : mem.HoldsAt (a + 1) (field ++ [0]) :=
            (Memory.holdsAt_append.mp (show mem.HoldsAt a ([c] ++ (field ++ [0])) from hheld)).2
          have hih := ih hrest (fun h => hfield (List.mem_cons_of_mem _ h))
            (fun h => hname (List.mem_cons_of_mem _ h))
          rw [kstrcmpS, hbyte, if_neg hc]
          by_cases heq : c = c'
          · rw [if_neg (not_not.mpr heq), hih, heq]
            simp
          · rw [if_pos heq]
            simp [heq]

/-- The name in a header is compared with another one. -/
theorem kstrcmpS_nameField {field name : List UInt8} (hheld : mem.HoldsAt a (nameField field))
    (hfield : IsName field) (hname : IsName name) :
    kstrcmpS mem a name = true ↔ field = name := by
  have hshort := hfield.short
  obtain ⟨n, hn⟩ : ∃ n, nameMaxlen - field.length = n + 1 :=
    ⟨nameMaxlen - field.length - 1, by omega⟩
  have hsplit : nameField field = (field ++ [0]) ++ List.replicate n 0 := by
    rw [nameField, hn, List.replicate_succ, List.append_assoc]
    rfl
  rw [hsplit, Memory.holdsAt_append] at hheld
  exact kstrcmpS_iff hheld.1 hfield.no_zero hname.no_zero

/-- The loop passes headers with other names. -/
theorem lookupLoop_skip {name : List UInt8} {turns i k : Nat} (hk : k ≤ turns)
    (hskip : ∀ j < k, kstrcmpS mem (d + mem.load (d + 80 + 4 * (i + j)) 4) name = false) :
    lookupLoop mem d name turns i = lookupLoop mem d name (turns - k) (i + k) := by
  induction k generalizing turns i with
  | zero => rfl
  | succ k ih =>
      obtain ⟨rest, rfl⟩ : ∃ rest, turns = rest + 1 := ⟨turns - 1, by omega⟩
      have hfirst : kstrcmpS mem (d + mem.load (d + 80 + 4 * i) 4) name = false :=
        hskip 0 (by omega)
      have hother : ∀ j < k, kstrcmpS mem (d + mem.load (d + 80 + 4 * (i + 1 + j)) 4) name = false := by
        intro j hj
        have hindex : i + 1 + j = i + (j + 1) := by omega
        rw [hindex]
        exact hskip (j + 1) (by omega)
      rw [lookupLoop]
      simp only [hfirst, Bool.false_eq_true, and_false, if_false]
      rw [ih (by omega) hother]
      congr 1
      · omega
      · omega

/-- A file in memory: its header with the contents behind it. -/
structure FileAt (mem : Memory) (a : Nat) (file : InitrdFile) : Prop where
  name_eq : mem.HoldsAt a (nameField file.name)
  size_eq : mem.load (a + 64) 4 = u32 file.contents.length
  magic_eq : mem.load (a + 72) 4 = fileMagic
  contents_eq : mem.HoldsAt (a + fileHeaderSize) file.contents

/-- A directory in memory, with its files where its header says. -/
structure DirAt (mem : Memory) (d : Nat) (dir : InitrdDir) : Prop where
  name_eq : mem.HoldsAt d (nameField dir.name)
  magic_eq : mem.load (d + 76) 4 = dirMagic
  numFiles_eq : mem.load (d + 68) 4 = dir.files.length
  offset_eq : ∀ i < dir.files.length, mem.load (d + 80 + 4 * i) 4 = dir.offset i
  file_at : ∀ i (hi : i < dir.files.length), FileAt mem (d + dir.offset i) dir.files[i]

/-- The root directory in memory, with the directories where its header says. -/
structure RootAt (mem : Memory) (r : Nat) (dirs : List InitrdDir) : Prop where
  numFiles_eq : mem.load (r + 68) 4 = dirs.length
  offset_eq : ∀ i < dirs.length, mem.load (r + 80 + 4 * i) 4 = dirPosition dirs i
  dir_at : ∀ i (hi : i < dirs.length), DirAt mem (r + dirPosition dirs i) dirs[i]

/-- A directory of the image, when the offsets of its files fit. -/
theorem dirAt_of_built {dir : InitrdDir} {slot : DirSlot} (hbuilt : BuiltFrom dir.name dir.files slot)
    (hname : IsName dir.name) (hnames : ∀ file ∈ dir.files, IsName file.name)
    (hfew : dir.files.length ≤ maxFiles) (hfit : ∀ i < dir.files.length, dir.offset i < 2 ^ 32)
    (hheld : mem.HoldsAt d slot.bytes) : DirAt mem d dir := by
  obtain ⟨hheader, hfiles⟩ := hbuilt.at_of_holdsAt hname hnames hheld
  have hfive : maxFiles = 5 := rfl
  constructor
  case name_eq => exact hbuilt.name_eq ▸ hheader.name_eq
  case magic_eq =>
    rw [hheader.magic_eq, hbuilt.magic_eq]
    rfl
  case numFiles_eq => rw [hheader.numFiles_eq, hbuilt.numFiles_eq, u32_eq_of_lt (by omega)]
  case offset_eq =>
    intro i hi
    rw [hheader.offset_eq i (by omega), hbuilt.offset_eq i hi]
    have hlt := hfit i hi
    rw [InitrdDir.offset] at hlt ⊢
    rw [u32_eq_of_lt hlt, u32_eq_of_lt hlt]
  case file_at =>
    intro i hi
    obtain ⟨inode, hslot⟩ := hbuilt.file_eq i hi
    have hshort := (hnames _ (List.getElem_mem hi)).short.le
    have hfile := hfiles i hi
    rw [hslot, FileSlot.bytes, Memory.holdsAt_append, FileHeader.length_bytes hshort] at hfile
    have hfheader := FileHeader.at_of_holdsAt hshort hfile.1
    constructor
    case name_eq => exact hfheader.name_eq
    case size_eq => exact hfheader.size_eq.trans (Nat.mod_mod _ _)
    case magic_eq => exact hfheader.magic_eq
    case contents_eq => exact hfile.2

/-- The image in memory, when its offsets are right. -/
theorem rootAt_of_built {dirs : List InitrdDir} {st : Builder} (hbuilt : Built dirs st)
    (hwf : WellFormed dirs) (hright : OffsetsRight dirs) (hheld : mem.HoldsAt a st.image) :
    RootAt mem (a + diskHeaderSize) dirs := by
  obtain ⟨hheader, hdirs⟩ := hbuilt.at_of_holdsAt hwf hheld
  have hfew : dirs.length ≤ 5 := hwf.few
  have hcount := hbuilt.dirCount_eq
  constructor
  case numFiles_eq =>
    rw [hheader.numFiles_eq]
    change u32 st.dirCount = _
    rw [hcount, u32_eq_of_lt (by omega)]
  case offset_eq =>
    intro i hi
    rw [hheader.offset_eq i (by unfold maxFiles; omega)]
    change u32 (if i = 0 ∨ i < st.dirCount then st.rootOffset i else 0) = _
    rw [if_pos (Or.inr (by omega)), hbuilt.rootOffset_eq hright hi,
      u32_eq_of_lt (hright.dirs_fit i hi)]
  case dir_at =>
    intro i hi
    have hmem : dirs[i] ∈ dirs := List.getElem_mem hi
    exact dirAt_of_built (hbuilt.done_eq i hi) (hwf.dir_name _ hmem) (hwf.file_name _ hmem)
      (hwf.files_few _ hmem) (hright.files_fit _ hmem) (hdirs i hi)

/-- Different elements of a list without duplicates. -/
theorem ne_of_nodup_map {α β : Type} {f : α → β} {l : List α} (h : (l.map f).Nodup) {i j : Nat}
    (hij : i < j) (hj : j < l.length) : f l[i] ≠ f l[j] := by
  have hne := List.pairwise_iff_getElem.mp h i j (by simpa using hij.trans hj) (by simpa using hj) hij
  simpa using hne

/-- The loop gets to the header of a name that stands in one of the headers, and finds it there. -/
theorem lookupLoop_reaches {α : Type} (name : α → List UInt8) {list : List α} {pos : Nat → Nat}
    (hdistinct : (list.map name).Nodup)
    (hoffset : ∀ i < list.length, mem.load (d + 80 + 4 * i) 4 = pos i)
    (hcompare : ∀ i (hi : i < list.length), ∀ x ∈ list,
      kstrcmpS mem (d + pos i) (name x) = true ↔ name list[i] = name x)
    {k : Nat} (hk : k < list.length) :
    kstrcmpS mem (d + pos k) (name list[k]) = true ∧ ∃ rest,
      lookupLoop mem d (name list[k]) list.length 0 =
        lookupLoop mem d (name list[k]) (rest + 1) k := by
  have hmem : list[k] ∈ list := List.getElem_mem hk
  have hskip : ∀ j < k, kstrcmpS mem (d + mem.load (d + 80 + 4 * (0 + j)) 4) (name list[k]) =
      false := by
    intro j hj
    have hjn : j < list.length := hj.trans hk
    rw [Nat.zero_add, hoffset j hjn, Bool.eq_false_iff]
    intro hequal
    rw [hcompare j hjn _ hmem] at hequal
    exact ne_of_nodup_map hdistinct hj hk hequal
  refine ⟨(hcompare k hk _ hmem).mpr rfl, list.length - k - 1, ?_⟩
  have hrest : list.length - k = list.length - k - 1 + 1 := by omega
  rw [lookupLoop_skip hk.le hskip, Nat.zero_add, ← hrest]

/-- The lookup of a directory. -/
theorem lookup_dir {dirs : List InitrdDir} (hwf : WellFormed dirs) {root : RamInode}
    (htype : root.type = .dir) (hstart : root.pstart = root.vstart)
    (hroot : RootAt mem root.vstart dirs) {k : Nat} (hk : k < dirs.length) :
    ∃ found, initramfsInodeLookup mem (some root) (some dirs[k].name) = .ok found ∧
      found.type = .dir ∧ found.pstart = found.vstart ∧
      found.vstart = root.vstart + dirPosition dirs k := by
  obtain ⟨hsame, rest, hloop⟩ := lookupLoop_reaches InitrdDir.name hwf.distinct hroot.offset_eq
    (fun i hi dir hdir => kstrcmpS_nameField (hroot.dir_at i hi).name_eq
      (hwf.dir_name _ (List.getElem_mem hi)) (hwf.dir_name dir hdir)) hk
  rw [initramfsInodeLookup, if_neg (not_not.mpr htype), hroot.numFiles_eq, hloop, lookupLoop]
  simp only [hroot.offset_eq k hk, (hroot.dir_at k hk).magic_eq, hsame, and_self, if_true]
  refine ⟨_, rfl, rfl, ?_, ?_⟩
  · simp only [RamEntry.inode, hstart, ite_self]
  · simp only [RamEntry.inode, hstart, ite_self]

/-- The lookup of a file: it is taken for a directory when the magic number of one lies behind its
header. -/
theorem lookup_file {dir : InitrdDir} (hnames : ∀ file ∈ dir.files, IsName file.name)
    (hdistinct : (dir.files.map InitrdFile.name).Nodup) {parent : RamInode}
    (htype : parent.type = .dir) (hstart : parent.pstart = parent.vstart)
    (hdir : DirAt mem parent.vstart dir) {k : Nat} (hk : k < dir.files.length) :
    ∃ found, initramfsInodeLookup mem (some parent) (some dir.files[k].name) = .ok found ∧
      (found.type = .reg ↔
        mem.load (parent.vstart + dir.offset k + fileHeaderSize) 4 ≠ dirMagic) ∧
      found.size = intOfU32 (u32 dir.files[k].contents.length) ∧
      found.pstart = parent.vstart + dir.offset k := by
  have hfile := hdir.file_at k hk
  obtain ⟨hsame, rest, hloop⟩ := lookupLoop_reaches InitrdFile.name hdistinct hdir.offset_eq
    (fun i hi file hfile => kstrcmpS_nameField (hdir.file_at i hi).name_eq
      (hnames _ (List.getElem_mem hi)) (hnames file hfile)) hk
  rw [initramfsInodeLookup, if_neg (not_not.mpr htype), hdir.numFiles_eq, hloop, lookupLoop]
  simp only [hdir.offset_eq k hk, hfile.magic_eq, hfile.size_eq, hsame, and_true, if_true]
  by_cases hmagic : mem.load (parent.vstart + dir.offset k + 76) 4 = dirMagic
  · rw [if_pos hmagic]
    refine ⟨_, rfl, ?_, ?_, ?_⟩
    · exact iff_of_false (fun h => RamType.noConfusion h) (not_not.mpr hmagic)
    · simp only [RamEntry.inode]
    · simp only [RamEntry.inode, hstart]
  · rw [if_neg hmagic]
    refine ⟨_, rfl, iff_of_true rfl hmagic, ?_, ?_⟩
    · simp only [RamEntry.inode]
    · simp only [RamEntry.inode, hstart]

end Lookup

/-! ## The round trip -/

/-- Every directory is found from the root directory, every file in its directory, as a regular file of
its size, and a read of that size returns its contents. -/
def RoundTrip (mem : Memory) (root : RamInode) (dirs : List InitrdDir) : Prop :=
  ∀ dir ∈ dirs, ∃ found, initramfsInodeLookup mem (some root) (some dir.name) = .ok found ∧
    found.type = .dir ∧
    ∀ file ∈ dir.files, ∃ ino, initramfsInodeLookup mem (some found) (some file.name) = .ok ino ∧
      ino.type = .reg ∧ ino.size = file.contents.length ∧
      ∃ opened, ino.openFile oRdonly = .ok opened ∧
        ∀ buf, ∃ opened' buf',
          initramfsFileRead mem (some opened) 0 file.contents.length (some buf) =
            .ok (file.contents.length, opened', buf') ∧
          buf'.bytes 0 file.contents.length = file.contents

/-- The size of every file is an `int`, and the four bytes behind its header are not the magic number of
a directory. -/
def FilesReadable (mem : Memory) (start : Nat) (dirs : List InitrdDir) : Prop :=
  ∀ i (hi : i < dirs.length), ∀ j (hj : j < dirs[i].files.length),
    dirs[i].files[j].contents.length < 2 ^ 31 ∧
    mem.load (start + diskHeaderSize + dirPosition dirs i + dirs[i].offset j + fileHeaderSize) 4 ≠
      dirMagic

instance (mem : Memory) (start : Nat) (dirs : List InitrdDir) :
    Decidable (FilesReadable mem start dirs) :=
  inferInstanceAs (Decidable (∀ i (hi : i < dirs.length), ∀ j (hj : j < dirs[i].files.length),
    dirs[i].files[j].contents.length < 2 ^ 31 ∧
    mem.load (start + diskHeaderSize + dirPosition dirs i + dirs[i].offset j + fileHeaderSize) 4 ≠
      dirMagic))

theorem intOfU32_eq_iff {n : Nat} : intOfU32 (u32 n) = n ↔ n < 2 ^ 31 := by
  have hliteral : intOfU32 (n % 4294967296) = n ↔ n < 2147483648 := by
    unfold intOfU32
    rw [Int.bmod_def]
    push_cast
    split
    · omega
    · omega
  exact hliteral

theorem bind_of_ok {ε α β : Type} {x : Except ε α} {a : α} {f : α → Except ε β} (h : x = .ok a) :
    x >>= f = f a := by
  rw [h]
  rfl

section Read

variable {size a : Nat}

theorem seek_start : RamFile.seek ⟨0, size, a⟩ 0 = .ok ⟨0, size, a⟩ := by
  have hzero : ssizeOfInt 0 = 0 := by decide
  unfold RamFile.seek
  dsimp only
  rw [Int.add_zero, Int.neg_zero, hzero, if_neg (by omega)]

theorem ssizeOfInt_of_int (hsize : size < 2 ^ 31) : ssizeOfInt size = size := by
  rw [ssizeOfInt, Int.bmod_eq_of_le (by omega) (by omega)]

/-- A read of all bytes of a file that was just opened. -/
theorem initramfsFileRead_all (hsize : size < 2 ^ 31) (mem buf : Memory) :
    initramfsFileRead mem (some ⟨0, size, a⟩) 0 size (some buf) =
      .ok (size, ⟨0, size, a⟩, kmemcpy buf 0 mem (a + fileHeaderSize) size) := by
  rw [initramfsFileRead, bind_of_ok seek_start]
  dsimp only
  rw [ssizeOfInt_of_int hsize, Int.add_zero, ssizeOfInt_of_int hsize, if_neg (by omega),
    Int.toNat_zero, Nat.add_zero]

end Read

section Trip

variable {mem : Memory} {dirs : List InitrdDir} {root : RamInode}

/-- Files that are readable are read back. -/
theorem RoundTrip.of_readable (hwf : WellFormed dirs) (htype : root.type = .dir)
    (hstart : root.pstart = root.vstart) (hroot : RootAt mem root.vstart dirs) {start : Nat}
    (hbase : root.vstart = start + diskHeaderSize) (h : FilesReadable mem start dirs) :
    RoundTrip mem root dirs := by
  intro dir hdir
  obtain ⟨i, hi, rfl⟩ := List.mem_iff_getElem.mp hdir
  obtain ⟨found, hfound, hftype, hfstart, hfaddr⟩ := lookup_dir hwf htype hstart hroot hi
  refine ⟨found, hfound, hftype, ?_⟩
  intro file hfile
  obtain ⟨j, hj, rfl⟩ := List.mem_iff_getElem.mp hfile
  have hat := hroot.dir_at i hi
  rw [← hfaddr] at hat
  obtain ⟨hsmall, hmagic⟩ := h i hi j hj
  rw [← hbase, ← hfaddr] at hmagic
  obtain ⟨ino, hino, hreg, hsize, hpstart⟩ := lookup_file (hwf.file_name _ hdir)
    (hwf.files_distinct _ hdir) hftype hfstart hat hj
  rw [intOfU32_eq_iff.mpr hsmall] at hsize
  have hopen : ino.openFile oRdonly = .ok ⟨0, ino.size, ino.pstart⟩ := by
    rw [RamInode.openFile, if_neg (not_not.mpr rfl), if_neg (not_not.mpr (hreg.mpr hmagic))]
  refine ⟨ino, hino, hreg.mpr hmagic, hsize, _, hopen, ?_⟩
  intro buf
  rw [hsize, hpstart]
  refine ⟨_, _, initramfsFileRead_all hsmall mem buf, ?_⟩
  rw [bytes_kmemcpy]
  exact (hat.file_at j hj).contents_eq

/-- Files that are read back are readable. -/
theorem RoundTrip.readable (hwf : WellFormed dirs) (htype : root.type = .dir)
    (hstart : root.pstart = root.vstart) (hroot : RootAt mem root.vstart dirs) {start : Nat}
    (hbase : root.vstart = start + diskHeaderSize) (h : RoundTrip mem root dirs) :
    FilesReadable mem start dirs := by
  intro i hi j hj
  have hdir : dirs[i] ∈ dirs := List.getElem_mem hi
  obtain ⟨found, hfound, hftype, hfstart, hfaddr⟩ := lookup_dir hwf htype hstart hroot hi
  have hat := hroot.dir_at i hi
  rw [← hfaddr] at hat
  obtain ⟨ino, hino, hreg, hsize, -⟩ := lookup_file (hwf.file_name _ hdir)
    (hwf.files_distinct _ hdir) hftype hfstart hat hj
  -- a lookup has one result
  obtain ⟨found', hfound', -, hfiles⟩ := h _ hdir
  obtain rfl : found = found' := Except.ok.inj (hfound.symm.trans hfound')
  obtain ⟨ino', hino', htype', hsize', -⟩ := hfiles _ (List.getElem_mem hj)
  obtain rfl : ino = ino' := Except.ok.inj (hino.symm.trans hino')
  constructor
  · exact intOfU32_eq_iff.mp (hsize.symm.trans hsize')
  · rw [← hbase, ← hfaddr]
    exact hreg.mp htype'

end Trip

theorem initramfsInit_image {mem : Memory} {start : Nat} {st : Builder}
    (hheld : mem.HoldsAt start st.image) :
    initramfsInit mem start st.image.length =
      .ok ⟨1, 0, .dir, start + diskHeaderSize, start + diskHeaderSize⟩ := by
  have hlength : st.image.length ≠ 0 := by
    simp [Builder.image, Builder.diskHeader]
  rw [initramfsInit, Builder.magic_of_holdsAt hheld, if_neg (by simp [hlength])]

/-- For directories whose offsets are right, `mkinitrd` writes an image from which every file is found
and read back just when the size of every file is an `int` and no file has the magic number of a
directory behind its header. -/
theorem initrd_round_trip_iff {dirs : List InitrdDir} (hwf : WellFormed dirs)
    (hright : OffsetsRight dirs) :
    ∃ image, mkinitrd (groupedArgs dirs) = .ok image ∧
      ∀ (mem : Memory) (start : Nat), mem.HoldsAt start image →
        ∃ root, initramfsInit mem start image.length = .ok root ∧
          (RoundTrip mem root dirs ↔ FilesReadable mem start dirs) := by
  obtain ⟨st, hmk, hbuilt⟩ := mkinitrd_grouped hwf
  refine ⟨st.image, hmk, ?_⟩
  intro mem start hheld
  have hroot : RootAt mem (start + diskHeaderSize) dirs := rootAt_of_built hbuilt hwf hright hheld
  refine ⟨_, initramfsInit_image hheld, ?_, ?_⟩
  · exact RoundTrip.readable hwf rfl rfl hroot rfl
  · exact RoundTrip.of_readable hwf rfl rfl hroot rfl

/-- `/sbin/init`, `/bin/ls` and `/bin/ps`, with a few bytes each. -/
def binDirs : List InitrdDir :=
  [⟨[115, 98, 105, 110], [⟨[105, 110, 105, 116], [1, 2, 3]⟩]⟩,
    ⟨[98, 105, 110], [⟨[108, 115], [4, 5]⟩, ⟨[112, 115], [6, 7, 8, 9]⟩]⟩]

/-- The same with `/etc/rc` between the two. -/
def etcDirs : List InitrdDir :=
  [⟨[115, 98, 105, 110], [⟨[105, 110, 105, 116], [1, 2, 3]⟩]⟩,
    ⟨[101, 116, 99], [⟨[114, 99], [10]⟩]⟩,
    ⟨[98, 105, 110], [⟨[108, 115], [4, 5]⟩, ⟨[112, 115], [6, 7, 8, 9]⟩]⟩]

theorem binDirs_wellFormed : WellFormed binDirs where
  nonempty := by decide
  few := by decide
  distinct := by decide
  dir_name := by decide
  files_nonempty := by decide
  files_few := by decide
  files_distinct := by decide
  file_name := by decide

theorem etcDirs_wellFormed : WellFormed etcDirs where
  nonempty := by decide
  few := by decide
  distinct := by decide
  dir_name := by decide
  files_nonempty := by decide
  files_few := by decide
  files_distinct := by decide
  file_name := by decide

theorem binDirs_offsets : OffsetsRight binDirs where
  equal := by decide
  dirs_fit := by decide
  files_fit := by decide

/-- The image of some directories, at an address in memory that is clear elsewhere. -/
def imageMemory (dirs : List InitrdDir) (start : Nat) : Memory := fun x =>
  match mkinitrd (groupedArgs dirs) with
  | .ok image => if x < start then 0 else image.getD (x - start) 0
  | .error _ => 0

theorem imageMemory_holdsAt {dirs : List InitrdDir} {image : List UInt8} (start : Nat)
    (h : mkinitrd (groupedArgs dirs) = .ok image) :
    (imageMemory dirs start).HoldsAt start image := by
  rw [Memory.HoldsAt, Memory.bytes]
  apply List.ext_getElem
  · simp
  · intro i hi hi'
    simp only [List.getElem_map, List.getElem_range, imageMemory, h]
    rw [if_neg (by omega), Nat.add_sub_cancel_left, List.getD_eq_getElem?_getD,
      List.getElem?_eq_getElem hi', Option.getD_some]

theorem binDirs_readable : FilesReadable (imageMemory binDirs 4096) 4096 binDirs := by
  decide +kernel

theorem binDirs_round_trip : WellFormed binDirs ∧ OffsetsRight binDirs ∧
    ∃ image, mkinitrd (groupedArgs binDirs) = .ok image ∧
      (imageMemory binDirs 4096).HoldsAt 4096 image ∧
      ∃ root, initramfsInit (imageMemory binDirs 4096) 4096 image.length = .ok root ∧
        RoundTrip (imageMemory binDirs 4096) root binDirs := by
  obtain ⟨image, himage, htrip⟩ := initrd_round_trip_iff binDirs_wellFormed binDirs_offsets
  have hheld := imageMemory_holdsAt 4096 himage
  obtain ⟨root, hroot, hiff⟩ := htrip _ _ hheld
  exact ⟨binDirs_wellFormed, binDirs_offsets, image, himage, hheld, root, hroot,
    hiff.mpr binDirs_readable⟩

/-- The second of three directories is not found. -/
theorem etcDirs_lookup :
    initramfsInodeLookup (imageMemory etcDirs 4096) (some ⟨1, 0, .dir, 4128, 4128⟩)
      (some [101, 116, 99]) = .error .enoent := by
  decide +kernel

theorem etcDirs_not_round_trip : WellFormed etcDirs ∧
    ∃ image, mkinitrd (groupedArgs etcDirs) = .ok image ∧
      (imageMemory etcDirs 4096).HoldsAt 4096 image ∧
      initramfsInit (imageMemory etcDirs 4096) 4096 image.length =
        .ok ⟨1, 0, .dir, 4128, 4128⟩ ∧
      ¬ RoundTrip (imageMemory etcDirs 4096) ⟨1, 0, .dir, 4128, 4128⟩ etcDirs := by
  obtain ⟨st, himage, -⟩ := mkinitrd_grouped etcDirs_wellFormed
  have hheld := imageMemory_holdsAt 4096 himage
  refine ⟨etcDirs_wellFormed, st.image, himage, hheld, initramfsInit_image hheld, ?_⟩
  intro htrip
  have hetc : (⟨[101, 116, 99], [⟨[114, 99], [10]⟩]⟩ : InitrdDir) ∈ etcDirs :=
    List.mem_cons_of_mem _ (List.mem_cons_self ..)
  obtain ⟨found, hfound, -⟩ := htrip _ hetc
  rw [etcDirs_lookup] at hfound
  cases hfound

end Fs
end Micael
