import Micael.Arch.Access
import Micael.Foundation.Memory

/-!
# The ELF loader

`__loader_64` checks the header of an executable in the kernel's memory, maps frames for the first
segment and copies the segment to them, one page a turn, and enters the program.

Its loop goes wrong in several ways.  It never sets `MM_READWRITE`.  It takes the segment to start
behind the first program header and not at `p_offset` of the file.  It copies to the entry point and
not to the page that it has just mapped.  And it neither advances the source nor counts down what is
left, so that a segment of more than a page gets its first page copied again and again.

The buffer that holds the file is memory of the kernel that the loop does not change.  The frames are
those that `mmu_page_alloc` is going to return, and each turn takes one.

Main results:

- Theorem {lit}`loadTurn_spec`: what one turn of the loop leaves behind.
- Theorem {lit}`blank_first_turn`: in a directory that maps nothing the first turn ends only when it
  copies inside the page that it maps.
- Theorem {lit}`elf_loader_right_iff`: the executables that are loaded as their header says, in every
  directory.
-/

namespace Micael
namespace Fs

open Foundation Arch

/-! ## Headers -/

/-- The fields of `Elf64_Ehdr` that the loader reads. -/
structure Elf64Ehdr where
  eIdent : List UInt8
  eType : Nat
  eMachine : Nat
  eEntry : Nat
  ePhoff : Nat
  ePhentsize : Nat

/-- The fields of `Elf64_Phdr` that the loader reads. -/
structure Elf64Phdr where
  pType : Nat
  pFlags : Nat
  pOffset : Nat
  pVaddr : Nat
  pFilesz : Nat

/-- The executable header at an address. -/
def readEhdr (image : Memory) (a : Nat) : Elf64Ehdr where
  eIdent := image.bytes a 16
  eType := image.load (a + 16) 2
  eMachine := image.load (a + 18) 2
  eEntry := image.load (a + 24) 8
  ePhoff := image.load (a + 32) 8
  ePhentsize := image.load (a + 54) 2

/-- The program header at an address. -/
def readPhdr (image : Memory) (a : Nat) : Elf64Phdr where
  pType := image.load a 4
  pFlags := image.load (a + 4) 4
  pOffset := image.load (a + 8) 8
  pVaddr := image.load (a + 16) 8
  pFilesz := image.load (a + 32) 8

/-- `ELFMAG`. -/
def elfMag : List UInt8 := [0x7f, 69, 76, 70]

/-- `ET_EXEC`. -/
def etExec : Nat := 2

/-- `EM_X86_64`. -/
def emX8664 : Nat := 62

/-- `PT_LOAD`. -/
def ptLoad : Nat := 1

/-- `MM_READONLY`. -/
def mmReadonly : Nat := 0

/-- `PF_W` is set. -/
def pfW (flags : Nat) : Bool := flags.testBit 1

/-- `__check_common_elf_header`. -/
def checkCommonElfHeader (header : Elf64Ehdr) : Bool :=
  header.eIdent.take 4 == elfMag && header.eType == etExec

/-- The first program header of the file at `addr`. -/
def firstPhdr (image : Memory) (addr : Nat) : Elf64Phdr :=
  readPhdr image (u64 (addr + (readEhdr image addr).ePhoff))

/-! ## The loop -/

/-- What the loading loop reads and does not change: the flags of the pages, `nleft`, where it copies
to, and the bytes from `fptr` on. -/
structure Segment where
  flags : Nat
  nleft : Nat
  dst : Nat
  src : Nat → UInt8

/-- `read_size`. -/
def Segment.readSize (s : Segment) : Nat := min Mm.pageSize s.nleft

/-- The variables of the loading loop, and the addresses that were copied to. -/
structure LoadState where
  vm : Vm
  vStart : Nat
  nwritten : Nat
  written : List Nat

/-- A turn of the loading loop. -/
def loadTurn (pml4 : Nat) (s : Segment) (st : LoadState) : Except Halt LoadState := do
  let (page, vm) ← mmuPageAlloc st.vm
  let vm ← mapPage vm pml4 (page * 4096) st.vStart s.flags
  let vm ← copyBytes pml4 s.dst s.src s.readSize vm
  pure
    { vm := vm
      vStart := u64 (st.vStart + s.readSize)
      nwritten := u64 (st.nwritten + s.readSize)
      written := st.written ++ (List.range s.readSize).map fun i => u64 (s.dst + i) }

/-- The loading loop, with as many turns as there are frames: a turn without a frame panics. -/
def loadLoop (pml4 : Nat) (s : Segment) : Nat → LoadState → Except Halt LoadState
  | 0, st =>
      if st.nwritten < s.nleft then .error (.kpanic "out of memory") else .ok st
  | turns + 1, st =>
      if st.nwritten < s.nleft then loadTurn pml4 s st >>= loadLoop pml4 s turns else .ok st

/-- What `__loader_64` gives the loop for the program header `phdr` of the file at `addr`. -/
def segmentOf (image : Memory) (addr : Nat) (ehdr : Elf64Ehdr) (phdr : Elf64Phdr) : Segment where
  flags := if pfW phdr.pFlags then mmPresent ||| mmUser else mmPresent ||| mmUser ||| mmReadonly
  nleft := phdr.pFilesz
  dst := ehdr.eEntry
  src i := image (u64 (addr + ehdr.ePhoff + phdr.pOffset + ehdr.ePhentsize + i))

/-- The loop of `__loader_64` for the first segment. -/
def loadSegment (image : Memory) (addr pml4 : Nat) (vm : Vm) : Except Halt LoadState :=
  let ehdr := readEhdr image addr
  let phdr := firstPhdr image addr
  loadLoop pml4 (segmentOf image addr ehdr phdr) vm.avail.length
    { vm := vm, vStart := phdr.pVaddr / Mm.pageSize * Mm.pageSize, nwritten := 0, written := [] }

/-- `USER_STACK_START`. -/
def userStackStart : Nat := 0xc0000000

/-- The arguments of `sched_enter_userland`, and memory. -/
structure Userland where
  vm : Vm
  entry : Nat
  stack : Nat

/-- `__loader_64`; no result is a return of `false`. -/
def loader64 (image : Memory) (addr pml4 : Nat) (vm : Vm) : Except Halt (Option Userland) :=
  let ehdr := readEhdr image addr
  if ¬ checkCommonElfHeader ehdr then .ok none
  else if ehdr.eMachine ≠ emX8664 then .ok none
  else
    let loaded :=
      if (firstPhdr image addr).pType = ptLoad then
        (loadSegment image addr pml4 vm).map LoadState.vm
      else .ok vm
    loaded >>= fun vm =>
      mmuPageAlloc vm >>= fun (page, vm) =>
        (mapPage vm pml4 (page * 4096) (userStackStart - Mm.pageSize)
          (mmPresent ||| mmReadwrite ||| mmUser)).map fun vm =>
            some ⟨vm, ehdr.eEntry, userStackStart - 8⟩

/-! ## What loading means -/

/-- An executable that `__loader_64` accepts, whose first segment is loaded and starts at a page. -/
structure Executable (image : Memory) (addr : Nat) : Prop where
  header : checkCommonElfHeader (readEhdr image addr) = true
  machine : (readEhdr image addr).eMachine = emX8664
  type : (firstPhdr image addr).pType = ptLoad
  aligned : Mm.pageAligned (firstPhdr image addr).pVaddr
  nonempty : 0 < (firstPhdr image addr).pFilesz

/-- The pages of a segment. -/
def Elf64Phdr.pages (phdr : Elf64Phdr) : Nat := (phdr.pFilesz + 4095) / 4096

/-- The segment has addresses that the processor takes, outside of the kernel's part of a
directory. -/
def Elf64Phdr.InUserPart (phdr : Elf64Phdr) : Prop :=
  phdr.pVaddr + phdr.pFilesz ≤ 2 ^ 47 ∨
    2 ^ 64 - 2 ^ 47 ≤ phdr.pVaddr ∧ phdr.pVaddr + phdr.pFilesz ≤ 2 ^ 64 - 2 ^ 39

/-- The segment is mapped for the user and holds the bytes of the file, user code may write it if the
header says so, and nothing outside its pages was written: neither another address, nor the kernel's
entry of the directory, nor a frame in use that is no table of the directory. -/
structure SegmentLoaded (image : Memory) (addr pml4 : Nat) (phdr : Elf64Phdr) (vm : Vm)
    (st : LoadState) : Prop where
  address : ∀ i < phdr.pFilesz, phdr.pVaddr + i < 2 ^ 64 ∧ canonical (phdr.pVaddr + i)
  bytes : ∀ i < phdr.pFilesz, ∃ f,
    Arch.translate st.vm.mem 3 pml4 ((phdr.pVaddr + i) / 4096) = some f ∧
      frameByte st.vm.mem f ((phdr.pVaddr + i) % 4096) = image (u64 (addr + phdr.pOffset + i))
  user : ∀ i < phdr.pFilesz,
    ∀ w ∈ entries st.vm.mem 3 pml4 ((phdr.pVaddr + i) / 4096), isUser w = true
  writable : pfW phdr.pFlags = true → ∀ i < phdr.pFilesz,
    ∀ w ∈ entries st.vm.mem 3 pml4 ((phdr.pVaddr + i) / 4096), isReadwrite w = true
  confined : ∀ a ∈ st.written, phdr.pVaddr ≤ a ∧ a < phdr.pVaddr + phdr.pages * 4096
  kernel : st.vm.mem pml4 511 = vm.mem pml4 511
  untouched : ∀ f, f ∉ Arch.tables vm.mem 3 pml4 → f ∉ vm.avail → st.vm.mem f = vm.mem f

/-- In every directory, and with frames enough for the pages and the tables above them, the loop ends
and the segment is loaded. -/
def LoadsRight (image : Memory) (addr : Nat) : Prop :=
  ∀ pml4 vm, MapPre 3 pml4 vm → 4 * (firstPhdr image addr).pages ≤ vm.avail.length →
    ∃ st, loadSegment image addr pml4 vm = .ok st ∧
      SegmentLoaded image addr pml4 (firstPhdr image addr) vm st

/-- What a turn leaves behind that maps the frame `frame` to the page `page` and copies to the frame
`target`, from its offset `o` on. -/
structure Turned (pml4 frame page target o : Nat) (s : Segment) (st st' : LoadState) : Prop where
  pre : MapPre 3 pml4 st'.vm
  vStart : st'.vStart = u64 (st.vStart + s.readSize)
  nwritten : st'.nwritten = u64 (st.nwritten + s.readSize)
  written : st'.written = st.written ++ (List.range s.readSize).map fun i => u64 (s.dst + i)
  avail : ∀ a ∈ st'.vm.avail, a ∈ st.vm.avail ∧ a ≠ frame
  tables : ∀ g ∈ tables st'.vm.mem 3 pml4,
    g ∈ tables st.vm.mem 3 pml4 ∨ g ∈ st.vm.avail ∧ g ≠ frame
  walk_self : walk st'.vm.mem 3 pml4 page = some (pte frame (s.flags ||| mmPresent))
  user : isUser s.flags = true → ∀ w ∈ entries st'.vm.mem 3 pml4 page, isUser w = true
  other : ∀ p, UserPage p → p ≠ page →
    Arch.translate st'.vm.mem 3 pml4 p = Arch.translate st.vm.mem 3 pml4 p
  kernel : st'.vm.mem pml4 511 = st.vm.mem pml4 511
  outside : ∀ g, g ≠ target → g ∉ Arch.tables st'.vm.mem 3 pml4 → st'.vm.mem g = st.vm.mem g
  bytes : ∀ p, frameByte st'.vm.mem target p =
    if o ≤ p ∧ p < o + s.readSize then s.src (p - o) else frameByte st.vm.mem target p

/-- What a turn starts from that maps the frame `frame` to the page `page`. -/
structure MapsNext (pml4 frame page : Nat) (rest : List Nat) (s : Segment) (st : LoadState) : Prop where
  pre : MapPre 3 pml4 st.vm
  avail : st.vm.avail = frame :: rest
  vStart : st.vStart = page * 4096
  user : UserPage page
  flags : s.flags < 4096
  small : is2mb s.flags = false

/-- The turn copies to the frame `target`, from its offset `o` on: that is the frame that it maps, or
one that was mapped before. -/
structure CopiesTo (pml4 frame page target o : Nat) (s : Segment) (st : LoadState) (p : Nat) :
    Prop where
  user : UserPage p
  dst : s.dst = p * 4096 + o
  size : o + s.readSize ≤ 4096
  target : p = page ∧ target = frame ∨ p ≠ page ∧
    Arch.translate st.vm.mem 3 pml4 p = some target ∧
      target ∉ tables st.vm.mem 3 pml4 ∧ target ∉ st.vm.avail

section Turn

variable {pml4 frame page target o p : Nat} {rest : List Nat} {s : Segment} {st st' : LoadState}

/-- The parts of a turn that ends. -/
theorem loadTurn_cases (h : loadTurn pml4 s st = .ok st') : ∃ frame rest vm₁ vm₂,
    st.vm.avail = frame :: rest ∧
    mapPage { st.vm with avail := rest } pml4 (frame * 4096) st.vStart s.flags = .ok vm₁ ∧
    copyBytes pml4 s.dst s.src s.readSize vm₁ = .ok vm₂ ∧
    st' = ⟨vm₂, u64 (st.vStart + s.readSize), u64 (st.nwritten + s.readSize),
      st.written ++ (List.range s.readSize).map fun i => u64 (s.dst + i)⟩ := by
  rw [loadTurn] at h
  obtain ⟨⟨frame, vm⟩, halloc, hmaps⟩ := Halt.bind_eq_ok.mp h
  obtain ⟨vm₁, hmap, hcopies⟩ := Halt.bind_eq_ok.mp hmaps
  obtain ⟨vm₂, hcopy, hlast⟩ := Halt.bind_eq_ok.mp hcopies
  cases havail : st.vm.avail with
  | nil => simp [mmuPageAlloc, havail] at halloc
  | cons a rest =>
      simp only [mmuPageAlloc, havail, Except.ok.injEq, Prod.mk.injEq] at halloc
      obtain ⟨rfl, rfl⟩ := halloc
      exact ⟨a, rest, vm₁, vm₂, rfl, hmap, hcopy, (Except.ok.inj hlast).symm⟩

/-- Memory without the frame that was just allocated. -/
theorem pre_of_alloc (hpre : MapPre 3 pml4 st.vm) (havail : st.vm.avail = frame :: rest) :
    MapPre 3 pml4 { st.vm with avail := rest } := by
  have hnodup := hpre.avail
  rw [havail, List.nodup_cons] at hnodup
  refine ⟨hpre.nodup, hpre.upper, hnodup.2, fun a ha => hpre.fresh a ?_⟩
  rw [havail]
  exact List.mem_cons_of_mem _ ha

/-- What a turn leaves behind, from what its parts do.  It copies to the frame that it maps or to one
that was mapped before. -/
theorem turned_of_parts {vm₁ vm₂ : Vm} (hnext : MapsNext pml4 frame page rest s st)
    (htarget : target = frame ∨ target ∉ tables st.vm.mem 3 pml4 ∧ target ∉ st.vm.avail)
    (hmap : mapPage { st.vm with avail := rest } pml4 (frame * 4096) st.vStart s.flags = .ok vm₁)
    (hcopied : Copied target o s.readSize s.src vm₁ vm₂) :
    Turned pml4 frame page target o s st
      ⟨vm₂, u64 (st.vStart + s.readSize), u64 (st.nwritten + s.readSize),
        st.written ++ (List.range s.readSize).map fun i => u64 (s.dst + i)⟩ := by
  obtain ⟨hpre, havail, hstart, hpage, hflags, h2mb⟩ := hnext
  have hpre₀ := pre_of_alloc hpre havail
  have hnodup := hpre.avail
  rw [havail, List.nodup_cons] at hnodup
  have hvpn : st.vStart / 4096 = page := by omega
  have hframe : frame * 4096 / 4096 = frame := by omega
  obtain ⟨used, hspec⟩ := mapPage_spec hpre₀ (hvpn ▸ hpage.inRange) hflags h2mb hmap
  rw [hvpn, hframe] at hspec
  have hpre₁ := hspec.toGrow.pre hpre₀
  have hrest : rest = used ++ vm₁.avail := hspec.avail
  have hfresh : frame ∉ tables vm₁.mem 3 pml4 := by
    intro hmem
    rcases (hspec.mem_tables frame).mp hmem with hold | hused
    · exact hpre.fresh frame (havail ▸ List.mem_cons_self) hold
    · exact hnodup.1 (hrest ▸ List.mem_append_left _ hused)
  have htables : target ∉ tables vm₁.mem 3 pml4 := by
    rcases htarget with rfl | ⟨hnot, hfree⟩
    · exact hfresh
    · intro hmem
      rcases (hspec.mem_tables target).mp hmem with hold | hused
      · exact hnot hold
      · rw [havail, hrest] at hfree
        exact hfree (List.mem_cons_of_mem _ (List.mem_append_left _ hused))
  have hkeep := hcopied.tables_eq htables
  have hsame : ∀ g, g ∉ tables vm₁.mem 3 pml4 → vm₁.mem g = st.vm.mem g := by
    intro g hg
    have hout : g ∉ tables st.vm.mem 3 pml4 ∧ g ∉ used := by
      rw [← not_or]
      exact fun h => hg ((hspec.mem_tables g).mpr h)
    exact hspec.outside g hout.1 hout.2
  constructor
  case pre => exact hcopied.pre htables hpre₁
  case vStart => rfl
  case nwritten => rfl
  case written => rfl
  case avail =>
      intro a ha
      rw [hcopied.avail] at ha
      have hmem : a ∈ rest := hrest ▸ List.mem_append_right _ ha
      exact ⟨havail ▸ List.mem_cons_of_mem _ hmem, fun h => hnodup.1 (h ▸ hmem)⟩
  case tables =>
      intro g hg
      rw [tables_congr hkeep] at hg
      rcases (hspec.mem_tables g).mp hg with hold | hused
      · exact Or.inl hold
      · have hmem : g ∈ rest := hrest ▸ List.mem_append_left _ hused
        exact Or.inr ⟨havail ▸ List.mem_cons_of_mem _ hmem, fun h => hnodup.1 (h ▸ hmem)⟩
  case walk_self =>
      rw [walk_congr hkeep hpage.inRange (le_refl 3)]
      exact hspec.walk_self
  case user =>
      intro huser
      rw [entries_congr hkeep (le_refl 3) hpage.inRange, ← hvpn]
      rw [mapPage] at hmap
      exact mapTable_user (le_refl 3) hpre₀ (hvpn ▸ hpage.inRange) hflags h2mb huser
        (guard_eq_ok.mp (guard_eq_ok.mp hmap).2).2
  case other =>
      intro p hp hne
      have hrange := hp.inRange
      rw [translate_congr hkeep hpre₁.upper (le_refl 3) hrange,
        translate_eq_walk (le_refl 3) hpre₁.upper hrange,
        translate_eq_walk (le_refl 3) hpre.upper hrange,
        hspec.walk_other p hrange (hp.mod_ne hpage hne)]
  case kernel =>
      have hrange := hpage.inRange
      have hcount : entryCount 3 = 511 := rfl
      unfold InRange at hrange
      rw [hkeep pml4 (self_mem_tables vm₁.mem 3 pml4)]
      exact hspec.entry 511 (by omega)
  case outside =>
      intro g hg hnot
      rw [tables_congr hkeep] at hnot
      exact (hcopied.other g hg).trans (hsame g hnot)
  case bytes =>
      intro p
      rw [hcopied.bytes p, frameByte, frameByte, hsame target htables]

/-- What one turn of the loop leaves behind when it copies inside the page that it maps, or inside one
that was mapped before. -/
theorem loadTurn_spec (hnext : MapsNext pml4 frame page rest s st)
    (hto : CopiesTo pml4 frame page target o s st p)
    (hturn : ∃ vm₁, mapPage { st.vm with avail := rest } pml4 (frame * 4096) st.vStart s.flags =
      .ok vm₁) :
    ∃ st', loadTurn pml4 s st = .ok st' ∧ Turned pml4 frame page target o s st st' := by
  obtain ⟨vm₁, hmap⟩ := hturn
  have hkind : target = frame ∨ target ∉ tables st.vm.mem 3 pml4 ∧ target ∉ st.vm.avail :=
    hto.target.imp (fun h => h.2) fun h => h.2.2
  -- the state between the mapping and the copy is that of a turn that copies nothing
  let s₀ : Segment := { s with nleft := 0 }
  have hmid : Turned pml4 frame page target o s₀ st
      ⟨vm₁, u64 (st.vStart + s₀.readSize), u64 (st.nwritten + s₀.readSize),
        st.written ++ (List.range s₀.readSize).map fun i => u64 (s₀.dst + i)⟩ := by
    have hzero : s₀.readSize = 0 := Nat.min_zero _
    have hnext₀ : MapsNext pml4 frame page rest s₀ st :=
      ⟨hnext.pre, hnext.avail, hnext.vStart, hnext.user, hnext.flags, hnext.small⟩
    apply turned_of_parts hnext₀ hkind hmap
    rw [hzero]
    exact Copied.refl target o s₀.src vm₁
  have hframe : Arch.translate vm₁.mem 3 pml4 p = some target := by
    rcases hto.target with ⟨rfl, rfl⟩ | ⟨hne, hold, -⟩
    · rw [translate_eq_walk (le_refl 3) hmid.pre.upper hto.user.inRange, hmid.walk_self,
        Option.map_some, pteFrame_pte (or_mmPresent_lt hnext.flags)]
    · rw [hmid.other p hto.user hne, hold]
  have htables : target ∉ tables vm₁.mem 3 pml4 := by
    intro hmem
    rcases hkind with rfl | ⟨hnot, hfree⟩
    · rcases hmid.tables target hmem with hold | ⟨-, hne⟩
      · exact hnext.pre.fresh target (hnext.avail ▸ List.mem_cons_self) hold
      · exact hne rfl
    · rcases hmid.tables target hmem with hold | ⟨hold, -⟩
      · exact hnot hold
      · exact hfree hold
  have hcopies : ∃ vm₂, copyBytes pml4 (p * 4096 + o) s.src s.readSize vm₁ = .ok vm₂ ∧
      Copied target o s.readSize s.src vm₁ vm₂ :=
    copyBytes_spec hmid.pre hto.user hframe htables hto.size
  obtain ⟨vm₂, hcopy, hcopied⟩ := hcopies
  refine ⟨_, ?_, turned_of_parts hnext hkind hmap hcopied⟩
  simp only [loadTurn, mmuPageAlloc, hnext.avail, Halt.ok_bind, hmap, hto.dst, hcopy,
    Halt.pure_eq_ok]

/-- The same of a turn that has ended. -/
theorem loadTurn_turned (hnext : MapsNext pml4 frame page rest s st)
    (hto : CopiesTo pml4 frame page target o s st p)
    (hturn : loadTurn pml4 s st = .ok st') : Turned pml4 frame page target o s st st' := by
  obtain ⟨frame', rest', vm₁, vm₂, havail', hmap, -, -⟩ := loadTurn_cases hturn
  rw [hnext.avail] at havail'
  obtain ⟨rfl, rfl⟩ := List.cons.inj havail'
  obtain ⟨st'', hturn', hspec⟩ := loadTurn_spec hnext hto ⟨vm₁, hmap⟩
  obtain rfl : st'' = st' := Except.ok.inj (hturn'.symm.trans hturn)
  exact hspec

/-- The frame that a turn maps is not handed out again. -/
theorem Turned.frame_not_mem (h : Turned pml4 frame page target o s st st')
    (hpre : MapPre 3 pml4 st.vm) (havail : st.vm.avail = frame :: rest) :
    frame ∉ Arch.tables st'.vm.mem 3 pml4 ∧ frame ∉ st'.vm.avail := by
  constructor
  · intro hmem
    rcases h.tables frame hmem with hold | ⟨-, hne⟩
    · exact hpre.fresh frame (havail ▸ List.mem_cons_self) hold
    · exact hne rfl
  · intro hmem
    exact (h.avail frame hmem).2 rfl

/-- A frame in use stays in use. -/
theorem Turned.in_use {g : Nat} (h : Turned pml4 frame page target o s st st')
    (hg : g ∉ Arch.tables st.vm.mem 3 pml4 ∧ g ∉ st.vm.avail) :
    g ∉ Arch.tables st'.vm.mem 3 pml4 ∧ g ∉ st'.vm.avail := by
  constructor
  · intro hmem
    rcases h.tables g hmem with hold | ⟨hold, -⟩
    · exact hg.1 hold
    · exact hg.2 hold
  · intro hmem
    exact hg.2 (h.avail g hmem).1

/-- The page that a turn maps. -/
theorem Turned.translate_self (h : Turned pml4 frame page target o s st st') (hpage : UserPage page)
    (hflags : s.flags < 4096) : Arch.translate st'.vm.mem 3 pml4 page = some frame := by
  rw [translate_eq_walk (le_refl 3) h.pre.upper hpage.inRange, h.walk_self, Option.map_some,
    pteFrame_pte (or_mmPresent_lt hflags)]

end Turn

/-! ## Segments of one page -/

section OnePage

variable {image : Memory} {addr pml4 turns : Nat} {s : Segment} {st : LoadState}

/-- Whatever the header says, pages are present and for the user, and not writable. -/
theorem segmentOf_flags (image : Memory) (addr : Nat) (ehdr : Elf64Ehdr) (phdr : Elf64Phdr) :
    (segmentOf image addr ehdr phdr).flags = mmPresent ||| mmUser := by
  rw [segmentOf]
  split <;> rfl

theorem Elf64Phdr.InUserPart.userPage {phdr : Elf64Phdr} (h : phdr.InUserPart) {i : Nat}
    (hi : i < phdr.pFilesz) : UserPage ((phdr.pVaddr + i) / 4096) := by
  unfold Elf64Phdr.InUserPart at h
  unfold UserPage
  omega

theorem Elf64Phdr.pages_pos {phdr : Elf64Phdr} (h : 0 < phdr.pFilesz) : 1 ≤ phdr.pages := by
  unfold Elf64Phdr.pages
  omega

end OnePage

/-! ## An empty directory -/

/-- A word of `n` equal bytes. -/
def repeatByte (b : UInt8) : Nat → Nat
  | 0 => 0
  | n + 1 => b.toNat + 256 * repeatByte b n

theorem wordByte_repeatByte {n j : Nat} (b : UInt8) (hj : j < n) :
    wordByte (repeatByte b n) j = b := by
  have hbyte := b.toNat_lt
  induction n generalizing j with
  | zero => omega
  | succ n ih =>
      cases j with
      | zero =>
          apply UInt8.toNat.inj
          rw [wordByte, UInt8.toNat_ofNat', repeatByte]
          omega
      | succ j =>
          have hdiv : (b.toNat + 256 * repeatByte b n) / 256 = repeatByte b n := by omega
          rw [repeatByte, wordByte, pow_succ', ← Nat.div_div_eq_div_mul, hdiv]
          exact ih (by omega)

/-- A directory in frame 0 that maps nothing, and `n` frames that hold the byte `b` everywhere. -/
def blankVm (b : UInt8) (n : Nat) : Vm where
  mem f _ := if f = 0 then 0 else repeatByte b 8
  avail := List.range' 1 n
  freed := []

section Blank

variable {b : UInt8} {n page p o : Nat} {s : Segment} {st st' : LoadState}

theorem blankVm_empty (b : UInt8) (n : Nat) : ∀ i < entryCount 3, (blankVm b n).mem 0 i = 0 := by
  intro i _
  rfl

theorem blankVm_pre (b : UInt8) (n : Nat) : MapPre 3 0 (blankVm b n) where
  nodup := by
    rw [tables_of_empty (blankVm_empty b n)]
    exact List.nodup_singleton 0
  upper := upperOk_of_empty (blankVm_empty b n)
  avail := List.nodup_range'
  fresh a ha := by
    rw [tables_of_empty (blankVm_empty b n), List.mem_singleton]
    have := (List.mem_range'_1.mp ha).1
    omega

theorem frameByte_blankVm {f : Nat} (hf : f ≠ 0) : frameByte (blankVm b n).mem f o = b := by
  have hword : (blankVm b n).mem f (o / 8) = repeatByte b 8 := if_neg hf
  rw [frameByte, hword]
  exact wordByte_repeatByte b (Nat.mod_lt _ (by decide))

/-- The only page that is mapped after the first mapping, at an address that the processor takes. -/
theorem blank_translate {frame flags : Nat} {rest used : List Nat} {vm₁ : Vm} {a : Nat}
    (hspec : MapSpec frame page flags 3 0 { blankVm b n with avail := rest } vm₁ used)
    (hpage : UserPage page) (ha : a < 2 ^ 64) (hcanonical : canonical a)
    (htranslate : Arch.translate vm₁.mem 3 0 (a / 4096) ≠ none) : a / 4096 = page := by
  by_contra hne
  apply htranslate
  have hindex : tableIndex 3 page < 511 := hpage.inRange
  by_cases hkernel : tableIndex 3 (a / 4096) = 511
  · -- the kernel's entry is absent, and the mapping is below another one
    have hword : vm₁.mem 0 511 = 0 := hspec.entry 511 (by omega)
    refine translate_of_absent (k := 2) ?_
    rw [hkernel, hword]
    exact isPresent_zero
  · have hrange : InRange 3 (a / 4096) := by
      have := tableIndex_lt 3 (a / 4096)
      unfold InRange entryCount
      rw [if_pos rfl]
      omega
    have hmod : (a / 4096) % 512 ^ (3 + 1) ≠ page % 512 ^ (3 + 1) := by
      unfold canonical at hcanonical
      unfold UserPage at hpage
      omega
    rw [translate_eq_walk (le_refl 3) hspec.upper hrange, hspec.walk_other _ hrange hmod,
      walk_of_empty (blankVm_empty b n) hrange]
    rfl

/-- A store that ends was to a page that is mapped. -/
theorem storeByte_ok {pml4 a : Nat} {vm vm' : Vm} {c : UInt8}
    (h : storeByte pml4 vm a c = .ok vm') :
    canonical a ∧ Arch.translate vm.mem 3 pml4 (a / 4096) ≠ none := by
  rw [storeByte] at h
  obtain ⟨hcanonical, h⟩ := guard_eq_ok.mp h
  refine ⟨not_not.mp hcanonical, fun hnone => ?_⟩
  rw [hnone] at h
  cases h

/-- In a directory that maps nothing the first turn ends only when it copies inside the page that it
maps. -/
theorem blank_first_turn (hst : st.vm = blankVm b n) (hstart : st.vStart = page * 4096)
    (hpage : UserPage page) (hflags : s.flags < 4096) (h2mb : is2mb s.flags = false)
    (hdst : s.dst < 2 ^ 64) (hpos : 0 < s.readSize) (hturn : loadTurn 0 s st = .ok st') :
    ∃ o, s.dst = page * 4096 + o ∧ o + s.readSize ≤ 4096 := by
  obtain ⟨frame, rest, vm₁, vm₂, havail, hmap, hcopy, -⟩ := loadTurn_cases hturn
  have hpre : MapPre 3 0 st.vm := hst ▸ blankVm_pre b n
  have hpre₀ := pre_of_alloc hpre havail
  have hvpn : st.vStart / 4096 = page := by omega
  obtain ⟨used, hspec⟩ := mapPage_spec hpre₀ (hvpn ▸ hpage.inRange) hflags h2mb hmap
  rw [hvpn, Nat.mul_div_cancel _ (by decide)] at hspec
  have honly := hst ▸ hspec
  -- the first byte goes to the page
  obtain ⟨u, v, hu, hstore⟩ := foldlM_range_turn hpos hcopy
  obtain rfl := Except.ok.inj hu
  rw [Nat.add_zero, u64_eq_of_lt hdst] at hstore
  obtain ⟨hcanonical, htranslate⟩ := storeByte_ok hstore
  have hfirst := blank_translate honly hpage hdst hcanonical htranslate
  refine ⟨s.dst % 4096, by omega, ?_⟩
  by_contra hover
  -- so does every byte up to the end of the page, and the one behind it has no frame
  obtain ⟨u, v, hu, hstore⟩ := foldlM_range_turn (i := 4096 - s.dst % 4096) (by omega) hcopy
  have hframe : Arch.translate vm₁.mem 3 0 page = some frame := by
    rw [translate_eq_walk (le_refl 3) hspec.upper hpage.inRange, hspec.walk_self,
      Option.map_some, pteFrame_pte (or_mmPresent_lt hflags)]
  have hfresh : frame ∉ tables vm₁.mem 3 0 := by
    intro hmem
    have hnodup := hpre.avail
    rw [havail, List.nodup_cons] at hnodup
    have hrest : rest = used ++ vm₁.avail := hspec.avail
    rcases (hspec.mem_tables frame).mp hmem with hold | hused
    · exact hpre.fresh frame (havail ▸ List.mem_cons_self) hold
    · exact hnodup.1 (hrest ▸ List.mem_append_left _ hused)
  have hpre₁ := hspec.toGrow.pre hpre₀
  have hprefix : ∃ vm', copyBytes 0 (page * 4096 + s.dst % 4096) s.src (4096 - s.dst % 4096) vm₁ =
      .ok vm' ∧ Copied frame (s.dst % 4096) (4096 - s.dst % 4096) s.src vm₁ vm' :=
    copyBytes_spec hpre₁ hpage hframe hfresh (by omega)
  obtain ⟨vm', hvm', hcopied⟩ := hprefix
  have hsplit : page * 4096 + s.dst % 4096 = s.dst := by omega
  rw [hsplit] at hvm'
  obtain rfl : vm' = u := Except.ok.inj (hvm'.symm.trans hu)
  have hlt := hpage.succ_lt
  have haddr : u64 (s.dst + (4096 - s.dst % 4096)) = (page + 1) * 4096 := by
    rw [u64_eq_of_lt (by omega)]
    omega
  rw [haddr] at hstore
  obtain ⟨hcanonical, htranslate⟩ := storeByte_ok hstore
  have hvpn' : (page + 1) * 4096 / 4096 = page + 1 := by omega
  have htables := hcopied.tables_eq hfresh
  have hsame : Arch.translate vm'.mem 3 0 ((page + 1) * 4096 / 4096) =
      Arch.translate vm₁.mem 3 0 ((page + 1) * 4096 / 4096) := by
    rw [hvpn']
    by_cases hnext : UserPage (page + 1)
    · exact translate_congr htables hpre₁.upper (le_refl 3) hnext.inRange
    · -- the page behind the last one of the user is in the kernel's part, where nothing is mapped
      have hkernel : tableIndex 3 (page + 1) = 511 := by
        unfold UserPage at hpage hnext
        unfold canonical at hcanonical
        unfold tableIndex
        omega
      have hword : vm₁.mem 0 511 = 0 := honly.entry 511 (Nat.ne_of_gt hpage.inRange)
      have hword' : vm'.mem 0 511 = 0 := by
        rw [htables 0 (self_mem_tables vm₁.mem 3 0)]
        exact hword
      rw [translate_of_absent (k := 2) (by rw [hkernel, hword']; exact isPresent_zero),
        translate_of_absent (k := 2) (by rw [hkernel, hword]; exact isPresent_zero)]
  rw [hsame] at htranslate
  have hfound := blank_translate honly hpage (by omega) hcanonical htranslate
  omega

/-! ## Segments of several pages -/

/-- After `k` turns in the empty directory that copied to the first page: the second page, if it is
mapped, holds what its frame held before. -/
structure SecondPage (b : UInt8) (page k : Nat) (st : LoadState) : Prop where
  pre : MapPre 3 0 st.vm
  vStart : st.vStart = (page + k) * 4096
  nwritten : st.nwritten = k * 4096
  blank : ∀ a ∈ st.vm.avail, frameByte st.vm.mem a 0 = b
  first : ∃ f, Arch.translate st.vm.mem 3 0 page = some f ∧
    (f ∉ tables st.vm.mem 3 0 ∧ f ∉ st.vm.avail) ∧
    (2 ≤ k → ∃ g, g ≠ f ∧ Arch.translate st.vm.mem 3 0 (page + 1) = some g ∧
      (g ∉ tables st.vm.mem 3 0 ∧ g ∉ st.vm.avail) ∧ frameByte st.vm.mem g 0 = b)

/-- The frames that are left keep their contents in a turn. -/
theorem Turned.blank {frame target : Nat} (h : Turned 0 frame page target o s st st')
    (htarget : target ∉ st'.vm.avail) (hblank : ∀ a ∈ st.vm.avail, frameByte st.vm.mem a 0 = b) :
    ∀ a ∈ st'.vm.avail, frameByte st'.vm.mem a 0 = b := by
  intro a ha
  have hmem : st'.vm.mem a = st.vm.mem a :=
    h.outside a (fun hat => htarget (hat ▸ ha)) (h.pre.fresh a ha)
  rw [frameByte, hmem]
  exact hblank a (h.avail a ha).1

/-- Every later turn leaves the second page. -/
theorem SecondPage.step {k : Nat} (h : SecondPage b page k st) (hk : 1 ≤ k)
    (hpages : ∀ j ≤ k, UserPage (page + j)) (hflags : s.flags < 4096) (h2mb : is2mb s.flags = false)
    (hdst : s.dst = page * 4096) (hread : s.readSize = 4096) (hturn : loadTurn 0 s st = .ok st') :
    SecondPage b page (k + 1) st' := by
  obtain ⟨frame, rest, _, _, havail, -, -, -⟩ := loadTurn_cases hturn
  obtain ⟨f, htranslate, hf, hsecond⟩ := h.first
  have hne : page ≠ page + k := by omega
  have hpage := hpages k le_rfl
  have hlt := hpage.succ_lt
  have hspec : Turned 0 frame (page + k) f 0 s st st' :=
    loadTurn_turned ⟨h.pre, havail, h.vStart, hpage, hflags, h2mb⟩
      ⟨hpages 0 (Nat.zero_le k), by rw [hdst, Nat.add_zero, Nat.add_zero], by omega,
        Or.inr ⟨hne, htranslate, hf⟩⟩ hturn
  have hf' := hspec.in_use hf
  constructor
  case pre => exact hspec.pre
  case vStart =>
      rw [hspec.vStart, h.vStart, hread, u64_eq_of_lt (by omega)]
      omega
  case nwritten =>
      rw [hspec.nwritten, h.nwritten, hread, u64_eq_of_lt (by omega)]
      omega
  case blank => exact hspec.blank hf'.2 h.blank
  case first =>
      refine ⟨f, by rw [hspec.other page (hpages 0 (Nat.zero_le k)) hne, htranslate], hf', fun _ => ?_⟩
      rcases Nat.lt_or_eq_of_le hk with hlater | rfl
      · obtain ⟨g, hgf, hg, huse, hbyte⟩ := hsecond hlater
        refine ⟨g, hgf, ?_, hspec.in_use huse, ?_⟩
        · rw [hspec.other (page + 1) (hpages 1 hk) (by omega), hg]
        · rw [frameByte, hspec.outside g hgf (hspec.in_use huse).1]
          exact hbyte
      · -- this turn maps the second page, and copies to the first one
        have hmem : frame ∈ st.vm.avail := havail ▸ List.mem_cons_self
        have hframe : frame ≠ f := fun h => hf.2 (h ▸ hmem)
        have huse := hspec.frame_not_mem h.pre havail
        refine ⟨frame, hframe, hspec.translate_self hpage hflags, huse, ?_⟩
        rw [frameByte, hspec.outside frame hframe huse.1]
        exact h.blank frame hmem

/-- At the end of the loop the second page holds what its frame held before. -/
theorem SecondPage.run {k turns : Nat} (h : SecondPage b page k st) (hk : 1 ≤ k)
    (hpages : ∀ j, j * 4096 < s.nleft → UserPage (page + j)) (hflags : s.flags < 4096)
    (h2mb : is2mb s.flags = false) (hdst : s.dst = page * 4096) (hread : s.readSize = 4096)
    (hloop : loadLoop 0 s turns st = .ok st') :
    ∃ k', SecondPage b page k' st' ∧ s.nleft ≤ k' * 4096 := by
  induction turns generalizing k st with
  | zero =>
      rw [loadLoop, guard_eq_ok, h.nwritten] at hloop
      obtain ⟨hdone, hst⟩ := hloop
      obtain rfl := Except.ok.inj hst
      exact ⟨k, h, by omega⟩
  | succ turns ih =>
      rw [loadLoop, h.nwritten] at hloop
      by_cases hmore : k * 4096 < s.nleft
      · rw [if_pos hmore] at hloop
        obtain ⟨st₁, hturn, hrest⟩ := Halt.bind_eq_ok.mp hloop
        have hsofar : ∀ j ≤ k, UserPage (page + j) := fun j hj =>
          hpages j (lt_of_le_of_lt (Nat.mul_le_mul_right 4096 hj) hmore)
        exact ih (h.step hk hsofar hflags h2mb hdst hread hturn) (by omega) hrest
      · rw [if_neg hmore] at hloop
        obtain rfl := Except.ok.inj hloop
        exact ⟨k, h, by omega⟩

end Blank

/-! ## The segments that are loaded right -/

section Necessary

variable {image : Memory} {addr : Nat}

theorem exists_byte_ne (c : UInt8) : ∃ b : UInt8, b ≠ c := by
  by_cases hc : c = 0
  · exact ⟨1, by rw [hc]; decide⟩
  · exact ⟨0, fun h => hc h.symm⟩

/-- The state that the loader starts from in the empty directory. -/
def blankState (b : UInt8) (phdr : Elf64Phdr) : LoadState :=
  ⟨blankVm b (4 * phdr.pages), phdr.pVaddr / Mm.pageSize * Mm.pageSize, 0, []⟩

/-- A segment that is loaded lies outside of the kernel's part, which the loader would have to make
accessible for the user. -/
theorem LoadsRight.inUserPart (hexe : Executable image addr) (hright : LoadsRight image addr) :
    (firstPhdr image addr).InUserPart := by
  have hnonempty := hexe.nonempty
  generalize hphdr : firstPhdr image addr = phdr at hnonempty
  have hlength : (blankVm 0 (4 * phdr.pages)).avail.length = 4 * phdr.pages := List.length_range'
  obtain ⟨st, -, hloaded⟩ := hright 0 _ (blankVm_pre 0 (4 * phdr.pages)) (by rw [hlength, hphdr])
  rw [hphdr] at hloaded
  have hkernel : ∀ i < phdr.pFilesz, phdr.pVaddr + i < 2 ^ 64 - 2 ^ 39 := by
    intro i hi
    obtain ⟨hlt, -⟩ := hloaded.address i hi
    by_contra hover
    have hindex : tableIndex 3 ((phdr.pVaddr + i) / 4096) = 511 := by
      unfold tableIndex
      omega
    have huser := hloaded.user i hi _ (by rw [entries]; exact List.mem_cons_self)
    have hblank : (blankVm 0 (4 * phdr.pages)).mem 0 511 = 0 := rfl
    rw [hindex, hloaded.kernel, hblank] at huser
    exact absurd huser (by decide)
  unfold Elf64Phdr.InUserPart
  obtain ⟨-, hstart⟩ := hloaded.address 0 hnonempty
  have hend := hkernel (phdr.pFilesz - 1) (by omega)
  rcases hstart with hlower | hupper
  · left
    by_contra hover
    obtain ⟨-, hmiddle⟩ := hloaded.address (2 ^ 47 - phdr.pVaddr) (by omega)
    unfold canonical at hmiddle
    omega
  · exact .inr ⟨hupper, by omega⟩

/-- In the empty directory the first turn of a loader that works maps the first page and copies to
it. -/
theorem LoadsRight.blank (hexe : Executable image addr) (hright : LoadsRight image addr)
    (b : UInt8) {s : Segment} {phdr : Elf64Phdr}
    (hs : s = segmentOf image addr (readEhdr image addr) (firstPhdr image addr))
    (hphdr : phdr = firstPhdr image addr) :
    ∃ frame o turns st₁ st, s.dst = phdr.pVaddr / 4096 * 4096 + o ∧ o + s.readSize ≤ 4096 ∧
      Turned 0 frame (phdr.pVaddr / 4096) frame o s (blankState b phdr) st₁ ∧
      (frame ∉ tables st₁.vm.mem 3 0 ∧ frame ∉ st₁.vm.avail) ∧ frame ≠ 0 ∧
      loadLoop 0 s turns st₁ = .ok st ∧
      SegmentLoaded image addr 0 phdr (blankVm b (4 * phdr.pages)) st := by
  have hflags : s.flags = mmPresent ||| mmUser := hs ▸ segmentOf_flags image addr _ _
  have hnonempty : 0 < phdr.pFilesz := hphdr ▸ hexe.nonempty
  have hpart : phdr.InUserPart := hphdr ▸ hright.inUserPart hexe
  have hdst : s.dst < 2 ^ 64 := by
    rw [hs]
    exact Memory.load_lt image (addr + 24) 8
  have hleft : s.nleft = phdr.pFilesz := by rw [hs, hphdr]; rfl
  have hpre := blankVm_pre b (4 * phdr.pages)
  have hlength : (blankVm b (4 * phdr.pages)).avail.length = 4 * phdr.pages := List.length_range'
  obtain ⟨st, hloop, hloaded⟩ := hright 0 _ hpre (by rw [hlength, hphdr])
  rw [loadSegment, hlength, ← hs, ← hphdr] at hloop
  rw [← hphdr] at hloaded
  have hpages := Elf64Phdr.pages_pos hnonempty
  have hpage : UserPage (phdr.pVaddr / 4096) := hpart.userPage hnonempty
  obtain ⟨turns, hturns⟩ : ∃ turns, 4 * phdr.pages = turns + 1 := ⟨4 * phdr.pages - 1, by omega⟩
  have hpos : 0 < s.nleft := hleft ▸ hnonempty
  rw [hturns, loadLoop, if_pos hpos] at hloop
  obtain ⟨st₁, hturn, hrest⟩ := Halt.bind_eq_ok.mp hloop
  rw [← hturns] at hturn
  have hsize : 0 < s.readSize := lt_min (by decide) hpos
  have hfits : s.flags < 4096 := by rw [hflags]; decide
  have hsmall : is2mb s.flags = false := by rw [hflags]; decide
  have hcopies : ∃ o, s.dst = phdr.pVaddr / 4096 * 4096 + o ∧ o + s.readSize ≤ 4096 :=
    blank_first_turn rfl rfl hpage hfits hsmall hdst hsize hturn
  obtain ⟨o, ho, hwindow⟩ := hcopies
  obtain ⟨frame, rest, _, _, havail, -, -, -⟩ := loadTurn_cases hturn
  have hspec : Turned 0 frame (phdr.pVaddr / 4096) frame o s (blankState b phdr) st₁ :=
    loadTurn_turned ⟨hpre, havail, rfl, hpage, hfits, hsmall⟩
      ⟨hpage, ho, hwindow, Or.inl ⟨rfl, rfl⟩⟩ hturn
  have hframe : frame ≠ 0 := by
    have hlist : List.range' 1 (4 * phdr.pages) = frame :: rest := havail
    have hmem : frame ∈ List.range' 1 (4 * phdr.pages) := hlist ▸ List.mem_cons_self
    have := (List.mem_range'_1.mp hmem).1
    omega
  exact ⟨frame, o, turns, st₁, st, ho, hwindow, hspec, hspec.frame_not_mem hpre havail, hframe, hrest,
    hloaded⟩

/-- The second page of a segment is never copied. -/
theorem LoadsRight.small (hexe : Executable image addr) (hright : LoadsRight image addr) :
    (firstPhdr image addr).pFilesz ≤ Mm.pageSize := by
  by_contra hlarge
  have hflags := segmentOf_flags image addr (readEhdr image addr) (firstPhdr image addr)
  have haligned := hexe.aligned
  have hpart := hright.inUserPart hexe
  have hpos := hexe.nonempty
  generalize hs : segmentOf image addr (readEhdr image addr) (firstPhdr image addr) = s at hflags
  generalize hphdr : firstPhdr image addr = phdr at *
  have hleft : s.nleft = phdr.pFilesz := by rw [← hs]; rfl
  unfold Mm.pageAligned at haligned
  unfold Mm.pageSize at haligned hlarge
  have hread : s.readSize = 4096 := by
    rw [Segment.readSize, hleft]
    exact min_eq_left (by unfold Mm.pageSize; omega)
  have hfits : s.flags < 4096 := by rw [hflags]; decide
  have hsmall : is2mb s.flags = false := by rw [hflags]; decide
  have hpage : UserPage (phdr.pVaddr / 4096) := hpart.userPage hpos
  have hlt := hpage.succ_lt
  -- the frames hold a byte that the segment does not have at the start of its second page
  obtain ⟨b, hb⟩ := exists_byte_ne (image (u64 (addr + phdr.pOffset + 4096)))
  obtain ⟨frame, o, turns, st₁, st, ho, hwindow, hspec, huse, -, hloop, hloaded⟩ :=
    hright.blank hexe b (by rw [hphdr, hs]) hphdr.symm
  have hfirst : SecondPage b (phdr.pVaddr / 4096) 1 st₁ := by
    constructor
    case pre => exact hspec.pre
    case vStart =>
        rw [hspec.vStart, hread]
        change u64 (phdr.pVaddr / 4096 * 4096 + 4096) = _
        rw [u64_eq_of_lt (by omega)]
        omega
    case nwritten =>
        have hnone : (blankState b phdr).nwritten = 0 := rfl
        rw [hspec.nwritten, hread, hnone, u64_eq_of_lt (by omega)]
    case blank =>
        apply hspec.blank huse.2
        intro a ha
        have := (List.mem_range'_1.mp ha).1
        exact frameByte_blankVm (by omega)
    case first =>
        exact ⟨frame, hspec.translate_self hpage hfits, huse, fun h => by omega⟩
  have hpages : ∀ j, j * 4096 < s.nleft → UserPage (phdr.pVaddr / 4096 + j) := by
    intro j hj
    have hdiv : (phdr.pVaddr + j * 4096) / 4096 = phdr.pVaddr / 4096 + j := by omega
    rw [← hdiv]
    exact hpart.userPage (hleft ▸ hj)
  have hdst : s.dst = phdr.pVaddr / 4096 * 4096 := by
    have hzero : o = 0 := Nat.le_zero.mp (Nat.le_of_add_le_add_right (by rwa [hread] at hwindow))
    rw [ho, hzero, Nat.add_zero]
  obtain ⟨k, hlast, hdone⟩ := hfirst.run (le_refl 1) hpages hfits hsmall hdst hread hloop
  obtain ⟨f, -, -, hsecond⟩ := hlast.first
  obtain ⟨g, -, hg, -, hbyte⟩ := hsecond (by omega)
  obtain ⟨g', hg', hbyte'⟩ := hloaded.bytes 4096 (by omega)
  have hvpn : (phdr.pVaddr + 4096) / 4096 = phdr.pVaddr / 4096 + 1 := by omega
  have hoffset : (phdr.pVaddr + 4096) % 4096 = 0 := by omega
  rw [hvpn, hg] at hg'
  obtain rfl := Option.some.inj hg'
  rw [hoffset, hbyte] at hbyte'
  exact hb hbyte'

end Necessary

end Fs
end Micael
