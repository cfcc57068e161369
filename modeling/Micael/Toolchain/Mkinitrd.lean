import Micael.Foundation.Layout
import Micael.Kernel.Machine

/-!
# The program that writes the initial ramdisk

`mkinitrd` takes pairs of a file and a path of the form `/dir/name`.  It collects the directories and
their files, at most five of each, and writes the image: the disk header, the header of the root
directory, and for each directory its header and its files, each a header with the contents behind it.

The offsets of a directory's files are added up while the arguments are read.  Those of the
directories are computed at the end, from the size of a single directory, the one before the last that
was used.

Strings are lists of bytes without the terminating zero.  A file is given by its contents.

Main results:

- Theorem {lit}`Filling.saveFile`: what one more file adds to a directory.
- Theorem {lit}`mkinitrd_grouped`: the headers of the image for arguments that are grouped by directory.
-/

namespace Micael
namespace Toolchain

open Foundation

/-! ## The program -/

/-- `HEADER_MAGIC`. -/
def headerMagic : Nat := 0x13371338

/-- `FILE_MAGIC`. -/
def fileMagic : Nat := 0xdeadbeef

/-- `DIR_MAGIC`. -/
def dirMagic : Nat := 0xcafebabe

/-- `NAME_MAXLEN`. -/
def nameMaxlen : Nat := 64

/-- `MAX_FILES`. -/
def maxFiles : Nat := 5

/-- `MAX_DIRS`. -/
def maxDirs : Nat := 5

/-- `sizeof(file_header_t)`. -/
def fileHeaderSize : Nat := 76

/-- `sizeof(dir_header_t)`. -/
def dirHeaderSize : Nat := 100

/-- `sizeof(disk_header_t)`. -/
def diskHeaderSize : Nat := 32

/-- `file_header_t`. -/
structure FileHeader where
  name : List UInt8
  size : Nat
  inode : Nat
  magic : Nat

/-- `dir_header_t`; only the first five offsets exist. -/
structure DirHeader where
  name : List UInt8
  size : Nat
  numFiles : Nat
  inode : Nat
  magic : Nat
  fileOffsets : Nat → Nat

/-- One of the `files`, with the contents of the file at `file_path`. -/
structure FileSlot where
  file : FileHeader
  contents : List UInt8

/-- One of the `data`; only the first five files exist. -/
structure DirSlot where
  dir : DirHeader
  fileCount : Nat
  files : Nat → FileSlot

/-- A slot that was cleared with `memset`. -/
def emptySlot : DirSlot where
  dir := ⟨[], 0, 0, 0, 0, fun _ => 0⟩
  fileCount := 0
  files _ := ⟨⟨[], 0, 0, 0⟩, []⟩

/-- A `-f` argument: the contents of the file and the path it gets. -/
structure Arg where
  contents : List UInt8
  path : List UInt8

/-- The variables of `main`; `inode` is the next one of `alloc_inode`. -/
structure Builder where
  data : Nat → DirSlot
  dirCount : Nat
  dirPtr : Nat
  prevDir : List UInt8
  curOffset : Nat
  inode : Nat

/-- How `main` ends without an image. -/
inductive MkStop where
  /-- The message about too many directories. -/
  | maxDirs
  /-- A path, a name or a file that leads out of its array. -/
  | fault
deriving DecidableEq, Repr

/-- The character `/`. -/
def slash : UInt8 := 47

/-- `parse_path`: the directory and the name of the file.  A path without a second slash is read to
beyond its end. -/
def parsePath (path : List UInt8) : Option (List UInt8 × List UInt8) :=
  if slash ∈ path.tail then
    some (path.tail.takeWhile (· ≠ slash), (path.reverse.takeWhile (· ≠ slash)).reverse)
  else none

/-- The directory of an argument: the one of the argument before it, one that exists, or a new one. -/
def Builder.selectDir (st : Builder) (curDir : List UInt8) : Except MkStop Builder :=
  if curDir = st.prevDir then .ok st
  else
    match (List.range maxDirs).find? fun i => (st.data i).dir.name = curDir with
    | some i => .ok { st with dirPtr := i }
    | none =>
        if st.dirCount = maxDirs then .error .maxDirs
        else
          let slot := st.data st.dirCount
          let dir := { slot.dir with inode := st.inode, magic := dirMagic, numFiles := 0, name := curDir }
          .ok { st with
            data := Function.update st.data st.dirCount { slot with dir := dir }
            dirCount := st.dirCount + 1
            dirPtr := st.dirCount
            inode := st.inode + 1 }

/-- Whether the directory has a file of that name, by `strncmp` with all five slots. -/
def DirSlot.hasFile (slot : DirSlot) (fname : List UInt8) : Bool :=
  (List.range maxFiles).any fun i => (slot.files i).file.name = fname.take nameMaxlen

/-- The directory with one more file counted. -/
def DirSlot.count (slot : DirSlot) (nwritten : Nat) : DirSlot :=
  { slot with dir := { slot.dir with
      size := u32 (slot.dir.size + (nwritten + fileHeaderSize))
      numFiles := u32 (slot.dir.numFiles + 1) } }

/-- `cur_offset` for the next file of a directory. -/
def Builder.nextOffset (st : Builder) (slot : DirSlot) : Nat :=
  if slot.fileCount = 0 then dirHeaderSize
  else u32 (st.curOffset + (fileHeaderSize + (slot.files (slot.fileCount - 1)).file.size))

/-- The part of the loop from `save_dir_data` on.  A file that is not saved is counted all the same. -/
def Builder.saveFile (st : Builder) (contents curDir fname : List UInt8) : Builder :=
  let nwritten := u32 contents.length
  let slot := (st.data st.dirPtr).count nwritten
  if slot.hasFile fname ∨ slot.fileCount = maxFiles then
    { st with data := Function.update st.data st.dirPtr slot, prevDir := curDir }
  else
    let fptr := slot.fileCount
    let curOffset := st.nextOffset slot
    let file := ⟨fname.take nameMaxlen, nwritten, st.inode, fileMagic⟩
    let dir := { slot.dir with fileOffsets := Function.update slot.dir.fileOffsets fptr curOffset }
    { st with
      data := Function.update st.data st.dirPtr
        { dir := dir
          fileCount := fptr + 1
          files := Function.update slot.files fptr ⟨file, contents⟩ }
      prevDir := curDir
      curOffset := curOffset
      inode := st.inode + 1 }

/-- One turn of the loop over the arguments.  The buffer for the directory has 64 bytes. -/
def Builder.addArg (st : Builder) (arg : Arg) : Except MkStop Builder :=
  match parsePath arg.path with
  | none => .error .fault
  | some (curDir, fname) =>
      if nameMaxlen ≤ curDir.length then .error .fault
      else (st.selectDir curDir).map fun st => st.saveFile arg.contents curDir fname

/-- The variables at the start; the root directory has the first inode. -/
def Builder.init : Builder where
  data _ := emptySlot
  dirCount := 0
  dirPtr := 0
  prevDir := []
  curOffset := 0
  inode := 2

/-- A name in its field of 64 bytes. -/
def nameField (name : List UInt8) : List UInt8 := name ++ List.replicate (nameMaxlen - name.length) 0

def FileHeader.bytes (h : FileHeader) : List UInt8 :=
  nameField h.name ++ (littleEndian 4 h.size ++ (littleEndian 4 h.inode ++ littleEndian 4 h.magic))

def DirHeader.bytes (h : DirHeader) : List UInt8 :=
  nameField h.name ++ (littleEndian 4 h.size ++ (littleEndian 4 h.numFiles ++
    (littleEndian 4 h.inode ++ (littleEndian 4 h.magic ++
      (List.range maxFiles).flatMap fun i => littleEndian 4 (h.fileOffsets i)))))

/-- A file of the image. -/
def FileSlot.bytes (slot : FileSlot) : List UInt8 := slot.file.bytes ++ slot.contents

/-- A directory of the image. -/
def DirSlot.bytes (slot : DirSlot) : List UInt8 :=
  slot.dir.bytes ++ (List.range slot.dir.numFiles).flatMap fun i => (slot.files i).bytes

/-- The disk header; the number of directories and their offsets are never set. -/
def Builder.diskHeader (st : Builder) : List UInt8 :=
  littleEndian 4 (u32 ((List.range st.dirCount).map fun i => (st.data i).dir.size).sum) ++
    (littleEndian 4 headerMagic ++ (littleEndian 4 0 ++
      (List.range maxDirs).flatMap fun _ => littleEndian 4 0))

/-- The loop over the offsets of the root directory. -/
def Builder.rootOffset (st : Builder) : Nat → Nat
  | 0 => dirHeaderSize
  | i + 1 => u32 (st.rootOffset i + dirHeaderSize + (st.data (st.dirPtr - 1)).dir.size)

/-- `root`, as it is written. -/
def Builder.root (st : Builder) : DirHeader where
  name := [slash]
  size := u32 (dirHeaderSize * st.dirCount)
  numFiles := st.dirCount
  inode := 1
  magic := dirMagic
  fileOffsets i := if i = 0 ∨ i < st.dirCount then st.rootOffset i else 0

/-- The image. -/
def Builder.image (st : Builder) : List UInt8 :=
  st.diskHeader ++ (st.root.bytes ++ (List.range st.dirCount).flatMap fun i => (st.data i).bytes)

/-- A directory with fewer files than it counts: the next one has no path. -/
def Builder.missing (st : Builder) : Prop :=
  ∃ i ∈ List.range st.dirCount, (st.data i).fileCount ≠ (st.data i).dir.numFiles

instance (st : Builder) : Decidable st.missing :=
  inferInstanceAs (Decidable (∃ i ∈ List.range st.dirCount,
    (st.data i).fileCount ≠ (st.data i).dir.numFiles))

/-- The image that `main` writes for its arguments.  With several directories, `data[dir_ptr - 1]` has
to exist. -/
def mkinitrd (args : List Arg) : Except MkStop (List UInt8) :=
  args.foldlM Builder.addArg Builder.init >>= fun st =>
    if st.missing ∨ 1 < st.dirCount ∧ st.dirPtr = 0 then .error .fault else .ok st.image

/-! ## Arguments that are grouped by directory -/

/-- A file of the ramdisk. -/
structure InitrdFile where
  name : List UInt8
  contents : List UInt8

/-- A directory of the ramdisk with its files. -/
structure InitrdDir where
  name : List UInt8
  files : List InitrdFile

/-- A name that fits in its field. -/
structure IsName (name : List UInt8) : Prop where
  nonempty : name ≠ []
  short : name.length < nameMaxlen
  no_slash : slash ∉ name
  no_zero : 0 ∉ name

instance (name : List UInt8) : Decidable (IsName name) :=
  decidable_of_iff (name ≠ [] ∧ name.length < nameMaxlen ∧ slash ∉ name ∧ 0 ∉ name)
    ⟨fun h => ⟨h.1, h.2.1, h.2.2.1, h.2.2.2⟩, fun h => ⟨h.1, h.2, h.3, h.4⟩⟩

/-- One to five directories with one to five files each, all with names, and the names distinct. -/
structure WellFormed (dirs : List InitrdDir) : Prop where
  nonempty : dirs ≠ []
  few : dirs.length ≤ maxDirs
  distinct : (dirs.map InitrdDir.name).Nodup
  dir_name : ∀ dir ∈ dirs, IsName dir.name
  files_nonempty : ∀ dir ∈ dirs, dir.files ≠ []
  files_few : ∀ dir ∈ dirs, dir.files.length ≤ maxFiles
  files_distinct : ∀ dir ∈ dirs, (dir.files.map InitrdFile.name).Nodup
  file_name : ∀ dir ∈ dirs, ∀ file ∈ dir.files, IsName file.name

/-- The `-f` argument for a file. -/
def InitrdFile.arg (dirName : List UInt8) (file : InitrdFile) : Arg where
  contents := file.contents
  path := slash :: (dirName ++ slash :: file.name)

def InitrdDir.args (dir : InitrdDir) : List Arg := dir.files.map (InitrdFile.arg dir.name)

/-- The arguments, grouped by directory. -/
def groupedArgs (dirs : List InitrdDir) : List Arg := dirs.flatMap InitrdDir.args

/-- The bytes of some files with their headers. -/
def filesSize (files : List InitrdFile) : Nat :=
  (files.map fun file => fileHeaderSize + file.contents.length).sum

/-- The offset of a file from its directory's header. -/
def InitrdDir.offset (dir : InitrdDir) (i : Nat) : Nat := dirHeaderSize + filesSize (dir.files.take i)

/-- The offset of a directory from the root directory's header. -/
def dirPosition (dirs : List InitrdDir) (i : Nat) : Nat :=
  dirHeaderSize + ((dirs.take i).map fun dir => dirHeaderSize + filesSize dir.files).sum

theorem filesSize_append (files files' : List InitrdFile) :
    filesSize (files ++ files') = filesSize files + filesSize files' := by
  simp [filesSize]

theorem takeWhile_ne_append {c : UInt8} {l l' : List UInt8} (h : c ∉ l) :
    (l ++ c :: l').takeWhile (· ≠ c) = l := by
  have hall : ∀ x ∈ l, (decide (x ≠ c)) = true := by
    intro x hx
    exact decide_eq_true fun heq => h (heq ▸ hx)
  rw [List.takeWhile_append_of_pos hall, List.takeWhile_cons_of_neg (by simp), List.append_nil]

theorem parsePath_arg {dirName : List UInt8} {file : InitrdFile} (hdir : slash ∉ dirName)
    (hfile : slash ∉ file.name) :
    parsePath (file.arg dirName).path = some (dirName, file.name) := by
  have hmem : slash ∈ (file.arg dirName).path.tail :=
    List.mem_append_right _ (List.mem_cons_self ..)
  have hreverse : (file.arg dirName).path.reverse =
      file.name.reverse ++ slash :: (slash :: dirName).reverse := by
    simp [InitrdFile.arg]
  rw [parsePath, if_pos hmem, hreverse, takeWhile_ne_append (by simpa using hfile),
    List.reverse_reverse]
  exact congrArg (fun l => some (l, file.name)) (takeWhile_ne_append hdir)

/-- A directory's slot when these files were saved in it. -/
structure BuiltFrom (name : List UInt8) (files : List InitrdFile) (slot : DirSlot) : Prop where
  name_eq : slot.dir.name = name
  magic_eq : slot.dir.magic = dirMagic
  numFiles_eq : slot.dir.numFiles = files.length
  fileCount_eq : slot.fileCount = files.length
  size_eq : slot.dir.size = u32 (filesSize files)
  offset_eq : ∀ i < files.length,
    slot.dir.fileOffsets i = u32 (dirHeaderSize + filesSize (files.take i))
  file_eq : ∀ i (hi : i < files.length), ∃ inode,
    slot.files i = ⟨⟨files[i].name, u32 files[i].contents.length, inode, fileMagic⟩, files[i].contents⟩
  unused : ∀ i, files.length ≤ i → (slot.files i).file.name = []

section Save

variable {name : List UInt8} {files : List InitrdFile} {file : InitrdFile} {slot : DirSlot}

/-- The directory does not have a file of a name that is new. -/
theorem BuiltFrom.hasFile_eq_false (hbuilt : BuiltFrom name files slot) (hname : IsName file.name)
    (hfresh : file.name ∉ files.map InitrdFile.name) (nwritten : Nat) :
    (slot.count nwritten).hasFile file.name = false := by
  have htake : file.name.take nameMaxlen = file.name := List.take_of_length_le hname.short.le
  rw [DirSlot.hasFile, List.any_eq_false]
  intro i _
  have hne : (slot.files i).file.name ≠ file.name := by
    by_cases hi : i < files.length
    · obtain ⟨inode, hfile⟩ := hbuilt.file_eq i hi
      rw [hfile]
      intro heq
      exact hfresh (heq ▸ List.mem_map_of_mem (List.getElem_mem hi))
    · rw [hbuilt.unused i (by omega)]
      exact fun heq => hname.nonempty heq.symm
  rw [htake]
  exact fun h => hne (of_decide_eq_true h)

/-- The offset of the next file. -/
theorem BuiltFrom.nextOffset_eq {st : Builder} (hbuilt : BuiltFrom name files slot)
    (hoffset : ∀ init last, files = init ++ [last] →
      st.curOffset = u32 (dirHeaderSize + filesSize init)) (nwritten : Nat) :
    st.nextOffset (slot.count nwritten) = u32 (dirHeaderSize + filesSize files) := by
  have hcount : (slot.count nwritten).fileCount = files.length := hbuilt.fileCount_eq
  rw [Builder.nextOffset, hcount]
  rcases List.eq_nil_or_concat files with hnil | ⟨init, last, hfiles⟩
  · rw [hnil]
    rfl
  · rw [List.concat_eq_append] at hfiles
    have hlength : files.length = init.length + 1 := by simp [hfiles]
    obtain ⟨inode, hlast⟩ := hbuilt.file_eq init.length (by omega)
    have hget : files[init.length] = last := by simp [hfiles]
    have hsize : (slot.files (files.length - 1)).file.size = u32 last.contents.length := by
      rw [hlength, Nat.add_sub_cancel, hlast, hget]
    have hsum : filesSize files = filesSize init + (fileHeaderSize + last.contents.length) := by
      rw [hfiles, filesSize_append]
      simp [filesSize]
    rw [if_neg (by omega), hoffset init last hfiles, hsum]
    change u32 (_ + (fileHeaderSize + (slot.files (files.length - 1)).file.size)) = _
    rw [hsize]
    simp only [u32]
    omega

/-- The slot that `saveFile` leaves. -/
def DirSlot.save (slot : DirSlot) (file : InitrdFile) (offset inode : Nat) : DirSlot :=
  let slot := slot.count (u32 file.contents.length)
  { dir := { slot.dir with
      fileOffsets := Function.update slot.dir.fileOffsets slot.fileCount offset }
    fileCount := slot.fileCount + 1
    files := Function.update slot.files slot.fileCount
      ⟨⟨file.name, u32 file.contents.length, inode, fileMagic⟩, file.contents⟩ }

/-- A directory with one more file. -/
theorem BuiltFrom.save (hbuilt : BuiltFrom name files slot) (hroom : files.length < maxFiles)
    (inode : Nat) :
    BuiltFrom name (files ++ [file])
      (slot.save file (u32 (dirHeaderSize + filesSize files)) inode) := by
  have hcount := hbuilt.fileCount_eq
  have hlength : (files ++ [file]).length = files.length + 1 := by simp
  constructor
  case name_eq => exact hbuilt.name_eq
  case magic_eq => exact hbuilt.magic_eq
  case numFiles_eq =>
    change u32 (slot.dir.numFiles + 1) = _
    rw [hbuilt.numFiles_eq, hlength, u32_eq_of_lt (by unfold maxFiles at hroom; omega)]
  case fileCount_eq =>
    change slot.fileCount + 1 = _
    rw [hcount, hlength]
  case size_eq =>
    change u32 (slot.dir.size + (u32 file.contents.length + fileHeaderSize)) = _
    rw [hbuilt.size_eq, filesSize_append]
    simp only [u32, filesSize, List.map_cons, List.map_nil, List.sum_cons, List.sum_nil]
    omega
  case offset_eq =>
    intro i hi
    change Function.update slot.dir.fileOffsets slot.fileCount _ i = _
    rw [hcount]
    by_cases hlast : i = files.length
    · rw [hlast, Function.update_self, List.take_left]
    · have hlt : i < files.length := by omega
      rw [Function.update_of_ne hlast, hbuilt.offset_eq i hlt,
        List.take_append_of_le_length hlt.le]
  case file_eq =>
    intro i hi
    change ∃ inode', Function.update slot.files slot.fileCount _ i = _
    rw [hcount]
    by_cases hlast : i = files.length
    · subst hlast
      exact ⟨inode, by simp⟩
    · have hlt : i < files.length := by omega
      rw [Function.update_of_ne hlast, List.getElem_append_left hlt]
      exact hbuilt.file_eq i hlt
  case unused =>
    intro i hi
    change (Function.update slot.files slot.fileCount _ i).file.name = _
    rw [Function.update_of_ne (by omega)]
    exact hbuilt.unused i (by omega)

/-- A new file in the directory that is filled. -/
theorem saveFile_eq {st : Builder} (hbuilt : BuiltFrom name files (st.data st.dirPtr))
    (hoffset : ∀ init last, files = init ++ [last] →
      st.curOffset = u32 (dirHeaderSize + filesSize init))
    (hname : IsName file.name) (hfresh : file.name ∉ files.map InitrdFile.name)
    (hroom : files.length < maxFiles) :
    st.saveFile file.contents name file.name =
      { st with
        data := Function.update st.data st.dirPtr
          ((st.data st.dirPtr).save file (u32 (dirHeaderSize + filesSize files)) st.inode)
        prevDir := name
        curOffset := u32 (dirHeaderSize + filesSize files)
        inode := st.inode + 1 } := by
  have htake : file.name.take nameMaxlen = file.name := List.take_of_length_le hname.short.le
  have hcount : ((st.data st.dirPtr).count (u32 file.contents.length)).fileCount ≠ maxFiles := by
    have : (st.data st.dirPtr).fileCount = files.length := hbuilt.fileCount_eq
    change (st.data st.dirPtr).fileCount ≠ maxFiles
    omega
  rw [Builder.saveFile]
  dsimp only
  rw [hbuilt.hasFile_eq_false hname hfresh, if_neg (by simp [hcount]),
    hbuilt.nextOffset_eq hoffset, htake]
  rfl

end Save

/-- The directories before were filled, and these files were saved in the next one. -/
structure Filling (done : List InitrdDir) (name : List UInt8) (files : List InitrdFile)
    (st : Builder) : Prop where
  dirCount_eq : st.dirCount = done.length + 1
  dirPtr_eq : st.dirPtr = done.length
  done_eq : ∀ i (hi : i < done.length), BuiltFrom done[i].name done[i].files (st.data i)
  built : BuiltFrom name files (st.data done.length)
  fresh : ∀ i, done.length < i → st.data i = emptySlot
  offset : ∀ init last, files = init ++ [last] →
    st.curOffset = u32 (dirHeaderSize + filesSize init)

/-- All files of these directories were saved. -/
structure Built (done : List InitrdDir) (st : Builder) : Prop where
  dirCount_eq : st.dirCount = done.length
  dirPtr_eq : done ≠ [] → st.dirPtr + 1 = done.length
  done_eq : ∀ i (hi : i < done.length), BuiltFrom done[i].name done[i].files (st.data i)
  fresh : ∀ i, done.length ≤ i → st.data i = emptySlot
  prevDir_eq : st.prevDir = [] ∨ st.prevDir ∈ done.map InitrdDir.name

section Build

variable {done : List InitrdDir} {name : List UInt8} {files : List InitrdFile} {file : InitrdFile}
variable {st : Builder}

/-- One more file. -/
theorem Filling.saveFile (h : Filling done name files st) (hname : IsName file.name)
    (hfresh : file.name ∉ files.map InitrdFile.name) (hroom : files.length < maxFiles) :
    Filling done name (files ++ [file]) (st.saveFile file.contents name file.name) ∧
      (st.saveFile file.contents name file.name).prevDir = name := by
  have hbuilt : BuiltFrom name files (st.data st.dirPtr) := h.dirPtr_eq ▸ h.built
  rw [saveFile_eq hbuilt h.offset hname hfresh hroom]
  refine ⟨?_, rfl⟩
  constructor
  case dirCount_eq => exact h.dirCount_eq
  case dirPtr_eq => exact h.dirPtr_eq
  case done_eq =>
    intro i hi
    dsimp only
    rw [h.dirPtr_eq, Function.update_of_ne (by omega)]
    exact h.done_eq i hi
  case built =>
    dsimp only
    rw [h.dirPtr_eq, Function.update_self]
    exact h.built.save hroom st.inode
  case fresh =>
    intro i hi
    dsimp only
    rw [h.dirPtr_eq, Function.update_of_ne (by omega)]
    exact h.fresh i hi
  case offset =>
    intro init last hsplit
    have hinit : files = init := (List.append_inj' hsplit rfl).1
    rw [hinit]

theorem addArg_eq (hdir : IsName name) (hfile : IsName file.name) :
    st.addArg (file.arg name) =
      (st.selectDir name).map fun st => st.saveFile file.contents name file.name := by
  rw [Builder.addArg, parsePath_arg hdir.no_slash hfile.no_slash]
  dsimp only
  rw [if_neg (by have := hdir.short; omega)]
  rfl

/-- The other files of a directory. -/
theorem Filling.addFiles (hdir : IsName name) {rest : List InitrdFile}
    (h : Filling done name files st) (hprev : st.prevDir = name)
    (hnames : ∀ file ∈ rest, IsName file.name)
    (hdistinct : ((files ++ rest).map InitrdFile.name).Nodup)
    (hfew : (files ++ rest).length ≤ maxFiles) :
    ∃ st', (rest.map (InitrdFile.arg name)).foldlM Builder.addArg st = .ok st' ∧
      Filling done name (files ++ rest) st' ∧ st'.prevDir = name := by
  induction rest generalizing files st with
  | nil =>
      rw [List.append_nil]
      exact ⟨st, rfl, h, hprev⟩
  | cons file rest ih =>
      have hfile : IsName file.name := hnames file (List.mem_cons_self ..)
      have hfresh : file.name ∉ files.map InitrdFile.name := by
        rw [List.map_append, List.nodup_append] at hdistinct
        intro hmem
        exact hdistinct.2.2 _ hmem _ (List.mem_cons_self ..) rfl
      have hroom : files.length < maxFiles := by
        rw [List.length_append, List.length_cons] at hfew
        omega
      obtain ⟨hnext, hprev'⟩ := h.saveFile hfile hfresh hroom
      have hselect : st.selectDir name = .ok st := by rw [Builder.selectDir, if_pos hprev.symm]
      have hadd : st.addArg (file.arg name) = .ok (st.saveFile file.contents name file.name) := by
        rw [addArg_eq hdir hfile, hselect]
        rfl
      have hsplit : files ++ file :: rest = (files ++ [file]) ++ rest := by simp
      rw [hsplit] at hdistinct hfew ⊢
      rw [List.map_cons, List.foldlM_cons, hadd]
      exact ih hnext hprev' (fun f hf => hnames f (List.mem_cons_of_mem _ hf)) hdistinct hfew

/-- A new directory. -/
theorem Built.selectDir (h : Built done st) (hdir : IsName name)
    (hfresh : name ∉ done.map InitrdDir.name) (hroom : done.length < maxDirs) :
    ∃ st', st.selectDir name = .ok st' ∧ Filling done name [] st' := by
  have hprev : name ≠ st.prevDir := by
    intro heq
    rcases h.prevDir_eq with hnil | hmem
    · exact hdir.nonempty (heq.trans hnil)
    · exact hfresh (heq ▸ hmem)
  have hnone : (List.range maxDirs).find? (fun i => (st.data i).dir.name = name) = none := by
    rw [List.find?_eq_none]
    intro i _ hfound
    have hname : (st.data i).dir.name = name := of_decide_eq_true hfound
    by_cases hi : i < done.length
    · rw [(h.done_eq i hi).name_eq] at hname
      exact hfresh (hname ▸ List.mem_map_of_mem (List.getElem_mem hi))
    · rw [h.fresh i (by omega)] at hname
      exact hdir.nonempty hname.symm
  have hcount := h.dirCount_eq
  rw [Builder.selectDir, if_neg hprev, hnone]
  dsimp only
  rw [if_neg (by omega)]
  refine ⟨_, rfl, ?_⟩
  constructor
  case dirCount_eq =>
    dsimp only
    omega
  case dirPtr_eq => exact hcount
  case done_eq =>
    intro i hi
    dsimp only
    rw [hcount, Function.update_of_ne (by omega)]
    exact h.done_eq i hi
  case built =>
    dsimp only
    rw [hcount, Function.update_self, h.fresh _ le_rfl]
    constructor
    case name_eq => rfl
    case magic_eq => rfl
    case numFiles_eq => rfl
    case fileCount_eq => rfl
    case size_eq => rfl
    case offset_eq =>
      intro i hi
      exact absurd hi (Nat.not_lt_zero i)
    case file_eq =>
      intro i hi
      exact absurd hi (Nat.not_lt_zero i)
    case unused =>
      intro i _
      rfl
  case fresh =>
    intro i hi
    dsimp only
    rw [hcount, Function.update_of_ne (by omega)]
    exact h.fresh i hi.le
  case offset =>
    intro init last hnil
    exact absurd hnil.symm (by simp)

/-- A directory that is filled is built. -/
theorem Filling.built_append {dir : InitrdDir} (h : Filling done dir.name dir.files st)
    (hprev : st.prevDir = dir.name) : Built (done ++ [dir]) st := by
  have hlength : (done ++ [dir]).length = done.length + 1 := by simp
  constructor
  case dirCount_eq => rw [h.dirCount_eq, hlength]
  case dirPtr_eq =>
    intro _
    rw [h.dirPtr_eq, hlength]
  case done_eq =>
    intro i hi
    by_cases hlast : i = done.length
    · subst hlast
      rw [List.getElem_concat_length rfl]
      exact h.built
    · have hlt : i < done.length := by omega
      rw [List.getElem_append_left hlt]
      exact h.done_eq i hlt
  case fresh =>
    intro i hi
    exact h.fresh i (by omega)
  case prevDir_eq =>
    rw [hprev]
    exact Or.inr (by simp)

/-- All files of one more directory. -/
theorem Built.addDir {dir : InitrdDir} (h : Built done st) (hdir : IsName dir.name)
    (hfresh : dir.name ∉ done.map InitrdDir.name) (hroom : done.length < maxDirs)
    (hsome : dir.files ≠ []) (hnames : ∀ file ∈ dir.files, IsName file.name)
    (hdistinct : (dir.files.map InitrdFile.name).Nodup) (hfew : dir.files.length ≤ maxFiles) :
    ∃ st', dir.args.foldlM Builder.addArg st = .ok st' ∧ Built (done ++ [dir]) st' := by
  obtain ⟨opened, hselect, hopened⟩ := h.selectDir hdir hfresh hroom
  obtain ⟨first, rest, hfiles⟩ := List.exists_cons_of_ne_nil hsome
  rw [hfiles] at hnames hdistinct hfew
  have hfirst : IsName first.name := hnames first (List.mem_cons_self ..)
  -- only the first file of a directory opens it
  obtain ⟨hsaved, hprev⟩ := hopened.saveFile hfirst (by simp) (by decide)
  have hadd : st.addArg (first.arg dir.name) =
      .ok (opened.saveFile first.contents dir.name first.name) := by
    rw [addArg_eq hdir hfirst, hselect]
    rfl
  obtain ⟨st', hrest, hfilled, hprev'⟩ := hsaved.addFiles hdir hprev
    (fun f hf => hnames f (List.mem_cons_of_mem _ hf)) hdistinct hfew
  refine ⟨st', ?_, Filling.built_append ?_ hprev'⟩
  · rw [InitrdDir.args, hfiles, List.map_cons, List.foldlM_cons, hadd]
    exact hrest
  · rw [hfiles]
    exact hfilled

/-- The directories of a list, one after the other. -/
theorem Built.addDirs {rest : List InitrdDir} (h : Built done st)
    (hwf : WellFormed (done ++ rest)) :
    ∃ st', (groupedArgs rest).foldlM Builder.addArg st = .ok st' ∧ Built (done ++ rest) st' := by
  induction rest generalizing done st with
  | nil =>
      rw [List.append_nil]
      exact ⟨st, rfl, h⟩
  | cons dir rest ih =>
      have hmem : dir ∈ done ++ dir :: rest := List.mem_append_right _ (List.mem_cons_self ..)
      have hfresh : dir.name ∉ done.map InitrdDir.name := by
        have hdistinct := hwf.distinct
        rw [List.map_append, List.nodup_append] at hdistinct
        intro hin
        exact hdistinct.2.2 _ hin _ (List.mem_cons_self ..) rfl
      have hroom : done.length < maxDirs := by
        have hfew := hwf.few
        rw [List.length_append, List.length_cons] at hfew
        omega
      obtain ⟨st₁, hstep, hbuilt⟩ := h.addDir (hwf.dir_name dir hmem) hfresh hroom
        (hwf.files_nonempty dir hmem) (hwf.file_name dir hmem) (hwf.files_distinct dir hmem)
        (hwf.files_few dir hmem)
      have hsplit : done ++ dir :: rest = (done ++ [dir]) ++ rest := by simp
      rw [hsplit] at hwf ⊢
      rw [groupedArgs, List.flatMap_cons, List.foldlM_append, hstep]
      exact ih hbuilt hwf

end Build

theorem Built.init : Built [] Builder.init where
  dirCount_eq := rfl
  dirPtr_eq := fun h => absurd rfl h
  done_eq := fun _ hi => absurd hi (Nat.not_lt_zero _)
  fresh := fun _ _ => rfl
  prevDir_eq := Or.inl rfl

/-- The image for arguments that are grouped by directory is that of slots with their files. -/
theorem mkinitrd_grouped {dirs : List InitrdDir} (hwf : WellFormed dirs) :
    ∃ st, mkinitrd (groupedArgs dirs) = .ok st.image ∧ Built dirs st := by
  have hadded : ∃ st, (groupedArgs dirs).foldlM Builder.addArg Builder.init = .ok st ∧
      Built dirs st := Built.init.addDirs hwf
  obtain ⟨st, hfold, hbuilt⟩ := hadded
  refine ⟨st, ?_, hbuilt⟩
  have hmissing : ¬ st.missing := by
    rintro ⟨i, hi, hne⟩
    rw [List.mem_range, hbuilt.dirCount_eq] at hi
    have hslot := hbuilt.done_eq i hi
    exact hne (hslot.fileCount_eq.trans hslot.numFiles_eq.symm)
  have hptr := hbuilt.dirPtr_eq hwf.nonempty
  have hcount : st.dirCount = dirs.length := hbuilt.dirCount_eq
  have hexists : ¬ (st.missing ∨ 1 < st.dirCount ∧ st.dirPtr = 0) := by
    rintro (h | h)
    · exact hmissing h
    · omega
  rw [mkinitrd, hfold]
  exact if_neg hexists

/-! ## Where the headers lie -/

theorem length_nameField {name : List UInt8} (h : name.length ≤ nameMaxlen) :
    (nameField name).length = nameMaxlen := by
  rw [nameField, List.length_append, List.length_replicate]
  omega

theorem FileHeader.length_bytes {h : FileHeader} (hname : h.name.length ≤ nameMaxlen) :
    h.bytes.length = fileHeaderSize := by
  simp [FileHeader.bytes, length_nameField hname, nameMaxlen, fileHeaderSize]

theorem DirHeader.length_bytes {h : DirHeader} (hname : h.name.length ≤ nameMaxlen) :
    h.bytes.length = dirHeaderSize := by
  simp [DirHeader.bytes, length_nameField hname, nameMaxlen, dirHeaderSize, maxFiles,
    List.length_flatMap]

/-- The header of a file in memory. -/
structure FileHeaderAt (mem : Memory) (a : Nat) (h : FileHeader) : Prop where
  name_eq : mem.HoldsAt a (nameField h.name)
  size_eq : mem.load (a + 64) 4 = u32 h.size
  magic_eq : mem.load (a + 72) 4 = u32 h.magic

/-- The header of a directory in memory. -/
structure DirHeaderAt (mem : Memory) (a : Nat) (h : DirHeader) : Prop where
  name_eq : mem.HoldsAt a (nameField h.name)
  size_eq : mem.load (a + 64) 4 = u32 h.size
  numFiles_eq : mem.load (a + 68) 4 = u32 h.numFiles
  magic_eq : mem.load (a + 76) 4 = u32 h.magic
  offset_eq : ∀ i < maxFiles, mem.load (a + 80 + 4 * i) 4 = u32 (h.fileOffsets i)

section Layout

variable {mem : Memory} {a : Nat}

theorem FileHeader.at_of_holdsAt {h : FileHeader} (hname : h.name.length ≤ nameMaxlen)
    (hheld : mem.HoldsAt a h.bytes) : FileHeaderAt mem a h := by
  simp only [FileHeader.bytes, Memory.holdsAt_append, length_nameField hname,
    length_littleEndian, nameMaxlen, Nat.add_assoc, Nat.reduceAdd] at hheld
  exact ⟨hheld.1, hheld.2.1.load, hheld.2.2.2.load⟩

theorem DirHeader.at_of_holdsAt {h : DirHeader} (hname : h.name.length ≤ nameMaxlen)
    (hheld : mem.HoldsAt a h.bytes) : DirHeaderAt mem a h := by
  simp only [DirHeader.bytes, Memory.holdsAt_append, length_nameField hname,
    length_littleEndian, nameMaxlen, Nat.add_assoc, Nat.reduceAdd] at hheld
  obtain ⟨hfield, hsize, hnum, -, hmagic, hoffsets⟩ := hheld
  refine ⟨hfield, hsize.load, hnum.load, hmagic.load, ?_⟩
  intro i hi
  have hpart := hoffsets.flatMap (i := i) (by simpa using hi)
  simp only [length_littleEndian, List.map_const', List.sum_replicate, List.length_take,
    List.length_range, List.getElem_range, smul_eq_mul, Nat.min_eq_left hi.le] at hpart
  have haddr : a + 80 + i * 4 = a + 80 + 4 * i := by omega
  rw [haddr] at hpart
  exact hpart.load

/-- A function of the numbers below the length of a list, taken on the first ones. -/
theorem map_take_range {α β : Type} (f : Nat → β) (g : α → β) {l : List α} {k : Nat}
    (hk : k ≤ l.length) (h : ∀ i (hi : i < l.length), f i = g l[i]) :
    ((List.range l.length).take k).map f = (l.take k).map g := by
  apply List.ext_getElem
  · simp
  · intro i hi _
    have hik : i < k := by
      rw [List.length_map, List.length_take] at hi
      omega
    simpa using h i (by omega)

section Slot

variable {name : List UInt8} {files : List InitrdFile} {slot : DirSlot}

theorem BuiltFrom.length_file (hbuilt : BuiltFrom name files slot)
    (hnames : ∀ file ∈ files, IsName file.name) (i : Nat) (hi : i < files.length) :
    (slot.files i).bytes.length = fileHeaderSize + files[i].contents.length := by
  obtain ⟨inode, hfile⟩ := hbuilt.file_eq i hi
  have hname := (hnames _ (List.getElem_mem hi)).short.le
  rw [FileSlot.bytes, List.length_append, hfile, FileHeader.length_bytes hname]

theorem BuiltFrom.sum_take (hbuilt : BuiltFrom name files slot)
    (hnames : ∀ file ∈ files, IsName file.name) {k : Nat} (hk : k ≤ files.length) :
    (((List.range files.length).take k).map fun i => (slot.files i).bytes.length).sum =
      filesSize (files.take k) := by
  rw [map_take_range _ (fun file : InitrdFile => fileHeaderSize + file.contents.length) hk
    (hbuilt.length_file hnames), filesSize]

theorem BuiltFrom.length_bytes (hbuilt : BuiltFrom name files slot) (hname : IsName name)
    (hnames : ∀ file ∈ files, IsName file.name) :
    slot.bytes.length = dirHeaderSize + filesSize files := by
  have hshort : slot.dir.name.length ≤ nameMaxlen := hbuilt.name_eq ▸ hname.short.le
  have hsum := hbuilt.sum_take hnames le_rfl
  rw [List.take_length, List.take_of_length_le (by simp)] at hsum
  rw [DirSlot.bytes, List.length_append, DirHeader.length_bytes hshort, List.length_flatMap,
    hbuilt.numFiles_eq, hsum]

/-- A directory in memory is its header, with the files at their offsets. -/
theorem BuiltFrom.at_of_holdsAt (hbuilt : BuiltFrom name files slot) (hname : IsName name)
    (hnames : ∀ file ∈ files, IsName file.name) (hheld : mem.HoldsAt a slot.bytes) :
    DirHeaderAt mem a slot.dir ∧ ∀ i < files.length,
      mem.HoldsAt (a + (dirHeaderSize + filesSize (files.take i))) (slot.files i).bytes := by
  have hshort : slot.dir.name.length ≤ nameMaxlen := hbuilt.name_eq ▸ hname.short.le
  rw [DirSlot.bytes, Memory.holdsAt_append, DirHeader.length_bytes hshort,
    hbuilt.numFiles_eq] at hheld
  refine ⟨DirHeader.at_of_holdsAt hshort hheld.1, ?_⟩
  intro i hi
  have hpart := hheld.2.flatMap (i := i) (by simpa using hi)
  rw [hbuilt.sum_take hnames hi.le, List.getElem_range, Nat.add_assoc] at hpart
  exact hpart

end Slot

section Image

variable {dirs : List InitrdDir} {st : Builder}

/-- The root directory and the directories of the image in memory. -/
theorem Built.at_of_holdsAt (hbuilt : Built dirs st) (hwf : WellFormed dirs)
    (hheld : mem.HoldsAt a st.image) :
    DirHeaderAt mem (a + diskHeaderSize) st.root ∧ ∀ i < dirs.length,
      mem.HoldsAt (a + diskHeaderSize + dirPosition dirs i) (st.data i).bytes := by
  have hdisk : st.diskHeader.length = diskHeaderSize := by
    simp [Builder.diskHeader, diskHeaderSize, maxDirs, List.length_flatMap]
  have hroot : st.root.name.length ≤ nameMaxlen := by
    change 1 ≤ nameMaxlen
    decide
  rw [Builder.image, Memory.holdsAt_append, Memory.holdsAt_append, hdisk,
    DirHeader.length_bytes hroot, hbuilt.dirCount_eq] at hheld
  refine ⟨DirHeader.at_of_holdsAt hroot hheld.2.1, ?_⟩
  intro i hi
  have hlength : ∀ j (hj : j < dirs.length), (st.data j).bytes.length =
      dirHeaderSize + filesSize dirs[j].files := by
    intro j hj
    have hmem : dirs[j] ∈ dirs := List.getElem_mem hj
    exact (hbuilt.done_eq j hj).length_bytes (hwf.dir_name _ hmem) (hwf.file_name _ hmem)
  have hpart := hheld.2.2.flatMap (i := i) (by simpa using hi)
  have hsum := map_take_range _ (fun dir : InitrdDir => dirHeaderSize + filesSize dir.files) hi.le
    hlength
  rw [hsum, List.getElem_range, Nat.add_assoc] at hpart
  exact hpart

/-- The image in memory starts with a disk header. -/
theorem Builder.magic_of_holdsAt (hheld : mem.HoldsAt a st.image) :
    mem.load (a + 4) 4 = headerMagic := by
  simp only [Builder.image, Builder.diskHeader, Memory.holdsAt_append, length_littleEndian] at hheld
  exact hheld.1.2.1.load

end Image

end Layout

/-! ## The offsets of the root directory -/

/-- The directories but the last have the same size, and no offset needs more than 32 bits. -/
structure OffsetsRight (dirs : List InitrdDir) : Prop where
  equal : ∀ dir ∈ dirs.dropLast, ∀ dir' ∈ dirs.dropLast,
    filesSize dir.files = filesSize dir'.files
  dirs_fit : ∀ i < dirs.length, dirPosition dirs i < 2 ^ 32
  files_fit : ∀ dir ∈ dirs, ∀ i < dir.files.length, dir.offset i < 2 ^ 32

theorem dirPosition_succ {dirs : List InitrdDir} {i : Nat} (hi : i < dirs.length) :
    dirPosition dirs (i + 1) = dirPosition dirs i + (dirHeaderSize + filesSize dirs[i].files) := by
  rw [dirPosition, List.take_add_one, List.getElem?_eq_getElem hi, Option.toList_some,
    List.map_append, List.sum_append, dirPosition]
  simp only [List.map_cons, List.map_nil, List.sum_cons, List.sum_nil]
  omega

/-- With directories of one size, the size of any will do for the offsets. -/
theorem Built.rootOffset_eq {dirs : List InitrdDir} {st : Builder} (hbuilt : Built dirs st)
    (hright : OffsetsRight dirs) {i : Nat} (hi : i < dirs.length) :
    st.rootOffset i = dirPosition dirs i := by
  induction i with
  | zero => rfl
  | succ i ih =>
      have hptr := hbuilt.dirPtr_eq (List.ne_nil_of_length_pos (by omega))
      have hsize := (hbuilt.done_eq (st.dirPtr - 1) (by omega)).size_eq
      have hmem : ∀ j (hj : j + 1 < dirs.length), dirs[j] ∈ dirs.dropLast := by
        intro j hj
        have hlt : j < dirs.dropLast.length := by
          rw [List.length_dropLast]
          omega
        have hget : dirs.dropLast[j] = dirs[j] := List.getElem_dropLast _
        rw [← hget]
        exact List.getElem_mem _
      have hequal := hright.equal _ (hmem (st.dirPtr - 1) (by omega)) _ (hmem i hi)
      have hfits := hright.dirs_fit (i + 1) hi
      rw [dirPosition_succ (by omega)] at hfits ⊢
      rw [Builder.rootOffset, ih (by omega), hsize, hequal]
      simp only [u32]
      omega

end Toolchain
end Micael
