import Micael.Foundation.Run
import Micael.Mm.Slab

/-!
# File objects and their operation tables

A file object is allocated together with an operation table.  A socket keeps that table.  The open
handlers of initramfs, tty and keyboard replace it by the table of the inode, and `file_generic_dealloc`
returns whatever table the file has to the cache.

A file is named by its address and a dentry by the inode it has.  The slab cache of the file objects
serves objects that are not allocated; the one of the tables is that of the slab allocator, with the
page it is offered.  The contents of the tables, `errno` where no handler sets it, the private data
and the reference counts of dentries and inodes are not part of the model.

Main results:

- Theorem {lit}`TablesInv.step`: the steps that return a table of a socket only keep every table where it
  belongs.
- Theorem {lit}`file_tables_safe_iff`: in a run every table that is returned is that of its file and of no
  other and of no inode, just when all files that are closed are sockets and no open handler of
  initramfs runs out of memory.
- Theorem {lit}`closing_initramfs_file_frees_inode_table`: the table of an inode is handed to the next
  socket after a file of that inode was closed.
-/

namespace Micael
namespace Fs

open Foundation Mm

/-! ## Files -/

/-- The part of an inode that the handlers read: `i_fops`, and whether `T_IFREG` is set. -/
structure InodeOps where
  fops : Nat
  regular : Bool
deriving DecidableEq, Repr

/-- `file_t`, without its dentry, its private data, its position and its mode. -/
structure FileT where
  fops : Nat
  count : Nat
deriving DecidableEq, Repr

/-- The function that made a file. -/
inductive Opener where
  | initramfs
  | tty
  | keyboard
  | socket
deriving DecidableEq, Repr

/-- The inodes, the file objects that are allocated, and the cache of the operation tables with its
pages and the tables that are handed out.  With a file is recorded which table `file_generic_alloc`
allocated for it, and who made it. -/
structure Files where
  inode : Nat → InodeOps
  file : Nat → Option FileT
  ops : SlabState
  given : Nat → Nat
  opener : Nat → Opener

/-- What the allocators supply to an allocation of a file: the object, or a null pointer, and the page
that is used when the cache of the tables needs one. -/
structure Supply where
  object : Option Nat
  page : Nat
deriving DecidableEq, Repr

/-- `O_EXEC`. -/
def oExec : Nat := 1

/-- `O_RDONLY`. -/
def oRdonly : Nat := 2

/-- `O_CREAT`. -/
def oCreat : Nat := 32

/-- `O_TRUNC`. -/
def oTrunc : Nat := 64

/-- The file that a call returns, or a null pointer with the error the call sets. -/
abbrev Opened := Except (Option Errno) Nat

/-- `file_generic_alloc`, for the function `opener`. -/
def fileGenericAlloc (s : Files) (opener : Opener) (mem : Supply) : Opened × Files :=
  match mem.object with
  | none => (.error (some .enomem), s)
  | some f =>
      match mmuCacheAllocEntry (some s.ops.cache) mem.page with
      | .error _ => (.error (some .enomem), s)
      | .ok r =>
          (.ok f,
            { s with
              file := Function.update s.file f (some ⟨r.ret, 1⟩)
              ops :=
                { cache := r.cache
                  pages := if r.tookPage then mem.page :: s.ops.pages else s.ops.pages
                  live := r.ret :: s.ops.live }
              given := Function.update s.given f r.ret
              opener := Function.update s.opener f opener })

/-- `file_generic_dealloc` of a file that is allocated. -/
def fileGenericDealloc (s : Files) (f : Nat) : Option (Except Errno Unit × Files) :=
  match s.file f with
  | none => none
  | some file =>
      if file.count > 1 then some (.error .ebusy, s)
      else
        let ops :=
          match mmuCacheFreeEntry (some s.ops.cache) file.fops with
          | .error _ => s.ops
          | .ok cache => { s.ops with cache := cache, live := s.ops.live.erase file.fops }
        some (.ok (), { s with file := Function.update s.file f none, ops := ops })

/-- The store `file->f_ops = dntr->d_inode->i_fops`. -/
def Files.share (s : Files) (f i : Nat) : Files :=
  { s with file := Function.update s.file f ((s.file f).map fun t => { t with fops := (s.inode i).fops }) }

/-- A file that shares the table of inode `i`, as the three open handlers make it. -/
def shareFile (s : Files) (opener : Opener) (i : Nat) (mem : Supply) : Opened × Files :=
  match fileGenericAlloc s opener mem with
  | (.error e, s) => (.error e, s)
  | (.ok f, s) => (.ok f, s.share f i)

/-- `initramfs_file_open` until the private data are allocated. -/
def initramfsFile (s : Files) (dntr : Option Nat) (mode : Nat) (mem : Supply) : Opened × Files :=
  match dntr with
  | none => (.error (some .einval), s)
  | some i =>
      if mode ≠ oRdonly then (.error (some .enotsup), s)
      else if (s.inode i).regular = false then (.error (some .einval), s)
      else shareFile s .initramfs i mem

/-- `initramfs_file_open`; `allocated` says that there is memory for the private data. -/
def initramfsFileOpen (s : Files) (dntr : Option Nat) (mode : Nat) (mem : Supply)
    (allocated : Bool) : Opened × Files :=
  match initramfsFile s dntr mode mem with
  | (.error e, s) => (.error e, s)
  | (.ok f, s) =>
      if allocated then (.ok f, s)
      else (.error none, ((fileGenericDealloc s f).map Prod.snd).getD s)

/-- `__open` of the keyboard. -/
def kbdOpen (s : Files) (i mode : Nat) (mem : Supply) : Opened × Files :=
  if mode ≠ oRdonly then (.error (some .einval), s) else shareFile s .keyboard i mem

/-- `__tty_open` until `/dev/kbd` is looked up. -/
def ttyFile (s : Files) (dntr : Option Nat) (mode : Nat) (mem : Supply) : Opened × Files :=
  match dntr with
  | none => (.error (some .einval), s)
  | some i =>
      if mode &&& (oExec ||| oCreat ||| oTrunc) ≠ 0 then (.error (some .enotsup), s)
      else shareFile s .tty i mem

/-- `__tty_open`; `kbd` is the inode that was found for `/dev/kbd`, and `mem'` serves the file that is
opened there.  When either fails, the file of the tty is not released. -/
def ttyOpen (s : Files) (dntr : Option Nat) (mode : Nat) (mem : Supply) (kbd : Option Nat)
    (mem' : Supply) : Opened × Files :=
  match ttyFile s dntr mode mem with
  | (.error e, s) => (.error e, s)
  | (.ok f, s) =>
      match kbd with
      | none => (.error (some .enoent), s)
      | some i =>
          match kbdOpen s i oRdonly mem' with
          | (.error e, s) => (.error e, s)
          | (.ok _, s) => (.ok f, s)

/-- The allocation of a socket: the operations are stored into the table that the file has. -/
def socketAlloc (s : Files) (mem : Supply) : Opened × Files := fileGenericAlloc s .socket mem

/-- `initramfs_file_close`, after the private data are freed. -/
def initramfsFileClose (s : Files) (f : Nat) : Option (Except Errno Unit × Files) :=
  fileGenericDealloc s f

/-- `__tty_close`. -/
def ttyClose (s : Files) (f : Nat) : Option (Except Errno Unit × Files) := fileGenericDealloc s f

/-- `__close` of the keyboard. -/
def kbdClose (s : Files) (f : Nat) : Option (Except Errno Unit × Files) := fileGenericDealloc s f

/-! ## Calls -/

/-- The functions through which a file is released. -/
inductive Closer where
  | initramfs
  | tty
  | keyboard
  | generic
deriving DecidableEq, Repr

/-- Releases a file. -/
def Closer.close : Closer → Files → Nat → Option (Except Errno Unit × Files)
  | .initramfs => initramfsFileClose
  | .tty => ttyClose
  | .keyboard => kbdClose
  | .generic => fileGenericDealloc

theorem Closer.close_eq (closer : Closer) (s : Files) (f : Nat) :
    closer.close s f = fileGenericDealloc s f := by
  cases closer <;> rfl

/-- A call, with what the allocators and the lookup of `/dev/kbd` supply. -/
inductive FileCall where
  | openInitramfs (dntr : Option Nat) (mode : Nat) (mem : Supply) (allocated : Bool)
  | openTty (dntr : Option Nat) (mode : Nat) (mem : Supply) (kbd : Option Nat) (mem' : Supply)
  | openKbd (i mode : Nat) (mem : Supply)
  | socket (mem : Supply)
  | close (closer : Closer) (f : Nat)
deriving DecidableEq, Repr

/-- The memory that is supplied is not in use: the object is not allocated, and the page is apart from
the pages of the cache and from the tables of the inodes. -/
structure Served (s : Files) (mem : Supply) : Prop where
  object : ∀ f, mem.object = some f → s.file f = none
  page : FreshPage s.ops.pages mem.page
  apart : ∀ i, ¬ (mem.page ≤ (s.inode i).fops ∧ (s.inode i).fops < mem.page + pageSize)

/-- One call; only files that are allocated are closed. -/
inductive FileStep : Files → FileCall → Files → Prop
  | openInitramfs {s : Files} {dntr : Option Nat} {mode : Nat} {mem : Supply} {allocated : Bool}
      (hmem : Served s mem) :
      FileStep s (.openInitramfs dntr mode mem allocated)
        (initramfsFileOpen s dntr mode mem allocated).2
  | openTty {s : Files} {dntr : Option Nat} {mode : Nat} {mem : Supply} {kbd : Option Nat}
      {mem' : Supply} (hmem : Served s mem) (hmem' : Served (ttyFile s dntr mode mem).2 mem') :
      FileStep s (.openTty dntr mode mem kbd mem') (ttyOpen s dntr mode mem kbd mem').2
  | openKbd {s : Files} {i mode : Nat} {mem : Supply} (hmem : Served s mem) :
      FileStep s (.openKbd i mode mem) (kbdOpen s i mode mem).2
  | socket {s : Files} {mem : Supply} (hmem : Served s mem) :
      FileStep s (.socket mem) (socketAlloc s mem).2
  | close {s s' : Files} {closer : Closer} {f : Nat} {r : Except Errno Unit}
      (hret : closer.close s f = some (r, s')) : FileStep s (.close closer f) s'

/-- A call in state `s` calls `file_generic_dealloc` for file `f` in state `s₁`. -/
inductive Deallocs : Files → FileCall → Files → Nat → Prop
  | close {s : Files} {closer : Closer} {f : Nat} : Deallocs s (.close closer f) s f
  | noMemory {s s₁ : Files} {dntr : Option Nat} {mode : Nat} {mem : Supply} {f : Nat}
      (hfile : initramfsFile s dntr mode mem = (.ok f, s₁)) :
      Deallocs s (.openInitramfs dntr mode mem false) s₁ f

/-- The table `p` belongs to file `f` alone: it was allocated for that file and not returned since,
and it is the table of no inode and of no other file. -/
structure OwnTable (s : Files) (f p : Nat) : Prop where
  given : s.given f = p
  live : p ∈ s.ops.live
  inode : ∀ i, (s.inode i).fops ≠ p
  other : ∀ g t, g ≠ f → s.file g = some t → t.fops ≠ p

/-- If `file_generic_dealloc` returns the table of file `f`, the table belongs to that file. -/
def ReturnsOwn (s : Files) (f : Nat) : Prop :=
  ∀ t, s.file f = some t → t.count ≤ 1 → OwnTable s f t.fops

/-- The calls that return no shared table: a file that is closed is a socket, and an open handler of
initramfs that has allocated its file finds memory for the private data. -/
def SharesNothing (s : Files) : FileCall → Prop
  | .close _ f => s.opener f = .socket
  | .openInitramfs dntr mode mem allocated =>
      allocated = true ∨
        ∀ i, dntr = some i → mode = oRdonly → (s.inode i).regular = true → mem.object = none
  | _ => True

/-! ## Allocation -/

/-- The files with one more, for which the cache served `r`. -/
def Files.add (s : Files) (f : Nat) (opener : Opener) (r : SlabAlloc) (page fops : Nat) : Files :=
  { s with
    file := Function.update s.file f (some ⟨fops, 1⟩)
    ops :=
      { cache := r.cache
        pages := if r.tookPage then page :: s.ops.pages else s.ops.pages
        live := r.ret :: s.ops.live }
    given := Function.update s.given f r.ret
    opener := Function.update s.opener f opener }

/-- The cache serves every request. -/
theorem mmuCacheAllocEntry_ok (c : MmCache) (page : Nat) :
    ∃ r, mmuCacheAllocEntry (some c) page = .ok r := by
  unfold mmuCacheAllocEntry
  simp only
  cases c.freeChunks with
  | cons mem rest => exact ⟨_, rfl⟩
  | nil =>
      cases c.freeList with
      | some cfe => exact ⟨_, rfl⟩
      | none => exact ⟨_, rfl⟩

theorem fileGenericAlloc_cases (s : Files) (opener : Opener) (mem : Supply) :
    (mem.object = none ∧ ∃ e, fileGenericAlloc s opener mem = (.error e, s)) ∨
      ∃ f r, mem.object = some f ∧ mmuCacheAllocEntry (some s.ops.cache) mem.page = .ok r ∧
        fileGenericAlloc s opener mem = (.ok f, s.add f opener r mem.page r.ret) := by
  unfold fileGenericAlloc
  cases mem.object with
  | none => exact .inl ⟨rfl, _, rfl⟩
  | some f =>
      obtain ⟨r, hr⟩ := mmuCacheAllocEntry_ok s.ops.cache mem.page
      refine .inr ⟨f, r, rfl, hr, ?_⟩
      simp only [hr, Files.add]

theorem shareFile_cases (s : Files) (opener : Opener) (i : Nat) (mem : Supply) :
    (mem.object = none ∧ ∃ e, shareFile s opener i mem = (.error e, s)) ∨
      ∃ f r, mem.object = some f ∧ mmuCacheAllocEntry (some s.ops.cache) mem.page = .ok r ∧
        shareFile s opener i mem = (.ok f, s.add f opener r mem.page (s.inode i).fops) := by
  unfold shareFile
  rcases fileGenericAlloc_cases s opener mem with ⟨hnone, e, hret⟩ | ⟨f, r, hobject, hr, hret⟩
  · exact .inl ⟨hnone, e, by rw [hret]⟩
  · refine .inr ⟨f, r, hobject, hr, ?_⟩
    rw [hret]
    simp only [Files.share, Files.add, Function.update_self, Function.update_idem, Option.map_some]

/-- An open handler fails without a change, or makes a file that shares the table of an inode. -/
def SharesOrFails (s : Files) (opener : Opener) (mem : Supply) (result : Opened × Files) : Prop :=
  (∃ e, result = (.error e, s)) ∨
    ∃ f i r, mem.object = some f ∧ mmuCacheAllocEntry (some s.ops.cache) mem.page = .ok r ∧
      result = (.ok f, s.add f opener r mem.page (s.inode i).fops)

theorem shareFile_shares (s : Files) (opener : Opener) (i : Nat) (mem : Supply) :
    SharesOrFails s opener mem (shareFile s opener i mem) := by
  rcases shareFile_cases s opener i mem with ⟨-, e, hret⟩ | ⟨f, r, hobject, hr, hret⟩
  · exact .inl ⟨e, hret⟩
  · exact .inr ⟨f, i, r, hobject, hr, hret⟩

theorem initramfsFile_shares (s : Files) (dntr : Option Nat) (mode : Nat) (mem : Supply) :
    SharesOrFails s .initramfs mem (initramfsFile s dntr mode mem) := by
  unfold initramfsFile
  cases dntr with
  | none => exact .inl ⟨_, rfl⟩
  | some i =>
      simp only
      split_ifs
      · exact .inl ⟨_, rfl⟩
      · exact .inl ⟨_, rfl⟩
      · exact shareFile_shares s .initramfs i mem

/-- The open handler of initramfs gets as far as the private data. -/
theorem initramfsFile_ok {s s₁ : Files} {dntr : Option Nat} {mode f : Nat} {mem : Supply}
    (hret : initramfsFile s dntr mode mem = (.ok f, s₁)) :
    ∃ i r, dntr = some i ∧ mode = oRdonly ∧ (s.inode i).regular = true ∧ mem.object = some f ∧
      mmuCacheAllocEntry (some s.ops.cache) mem.page = .ok r ∧
      s₁ = s.add f .initramfs r mem.page (s.inode i).fops := by
  unfold initramfsFile at hret
  cases dntr with
  | none => exact absurd hret (by simp)
  | some i =>
      by_cases hmode : mode = oRdonly
      · by_cases hregular : (s.inode i).regular = true
        · simp only [hmode, ne_eq, not_true_eq_false, if_false, hregular, Bool.true_eq_false] at hret
          rcases shareFile_cases s .initramfs i mem with ⟨-, e, hfail⟩ | ⟨g, r, hobject, hr, hdone⟩
          · exact absurd (hfail.symm.trans hret) (by simp)
          · obtain ⟨hg, rfl⟩ := Prod.mk.inj (hdone.symm.trans hret)
            obtain rfl := Except.ok.inj hg
            exact ⟨i, r, rfl, hmode, hregular, hobject, hr, rfl⟩
        · simp [hmode, hregular] at hret
      · simp [hmode] at hret

theorem kbdOpen_shares (s : Files) (i mode : Nat) (mem : Supply) :
    SharesOrFails s .keyboard mem (kbdOpen s i mode mem) := by
  unfold kbdOpen
  split_ifs
  · exact .inl ⟨_, rfl⟩
  · exact shareFile_shares s .keyboard i mem

theorem ttyFile_shares (s : Files) (dntr : Option Nat) (mode : Nat) (mem : Supply) :
    SharesOrFails s .tty mem (ttyFile s dntr mode mem) := by
  unfold ttyFile
  cases dntr with
  | none => exact .inl ⟨_, rfl⟩
  | some i =>
      simp only
      split_ifs
      · exact .inl ⟨_, rfl⟩
      · exact shareFile_shares s .tty i mem

/-! ## The invariant -/

/-- Every file has a table of its own from the cache; a socket uses it, and every other file uses the
table of an inode, which lies outside the pages of the cache. -/
structure TablesInv (size : Nat) (s : Files) : Prop where
  slab : SlabInv size s.ops
  outside : ∀ i, ∀ page ∈ s.ops.pages,
    ¬ (page ≤ (s.inode i).fops ∧ (s.inode i).fops < page + pageSize)
  single : ∀ f t, s.file f = some t → t.count = 1
  given : ∀ f t, s.file f = some t → s.given f ∈ s.ops.live
  apart : ∀ f t g u, s.file f = some t → s.file g = some u → s.given f = s.given g → f = g
  own : ∀ f t, s.file f = some t → s.opener f = .socket → t.fops = s.given f
  shared : ∀ f t, s.file f = some t → s.opener f ≠ .socket → ∃ i, t.fops = (s.inode i).fops

variable {size : Nat} {s s' : Files}

/-- A table that is handed out is not that of an inode. -/
theorem TablesInv.not_inode (h : TablesInv size s) {p : Nat} (hp : p ∈ s.ops.live) (i : Nat) :
    (s.inode i).fops ≠ p := by
  rintro rfl
  have hslot : (s.inode i).fops ∈ s.ops.pages.flatMap (slots s.ops.cache.itemSize) :=
    h.slab.perm.mem_iff.mp (List.mem_append_left _ (List.mem_append_left _ hp))
  obtain ⟨page, hpage, hmem⟩ := List.mem_flatMap.mp hslot
  have hbounds := mem_slots_bounds hmem
  have hpos := h.slab.item_pos
  exact h.outside i page hpage ⟨hbounds.1, by omega⟩

/-- One more file, which is a socket with its own table or shares the table of an inode. -/
theorem TablesInv.add (h : TablesInv size s) {mem : Supply} (hmem : Served s mem) {f fops : Nat}
    {opener : Opener} {r : SlabAlloc} (hobject : mem.object = some f)
    (hr : mmuCacheAllocEntry (some s.ops.cache) mem.page = .ok r)
    (hfops : opener = .socket ∧ fops = r.ret ∨
      opener ≠ .socket ∧ ∃ i, fops = (s.inode i).fops) :
    TablesInv size (s.add f opener r mem.page fops) := by
  have hnew : s.file f = none := hmem.object f hobject
  have hlive : r.ret ∉ s.ops.live := h.slab.ret_not_live hmem.page hr
  -- A file is the new one, or it was there before under another address.
  have hcases : ∀ g t, (s.add f opener r mem.page fops).file g = some t →
      (g = f ∧ t = ⟨fops, 1⟩) ∨ (g ≠ f ∧ s.file g = some t) := by
    intro g t hg
    by_cases hgf : g = f
    · subst hgf
      simp only [Files.add, Function.update_self, Option.some.injEq] at hg
      exact .inl ⟨rfl, hg.symm⟩
    · simp only [Files.add, Function.update_of_ne hgf] at hg
      exact .inr ⟨hgf, hg⟩
  have hgiven : ∀ g, g ≠ f → (s.add f opener r mem.page fops).given g = s.given g :=
    fun g hg => Function.update_of_ne hg ..
  have hself : (s.add f opener r mem.page fops).given f = r.ret := Function.update_self ..
  have hopener : ∀ g, g ≠ f → (s.add f opener r mem.page fops).opener g = s.opener g :=
    fun g hg => Function.update_of_ne hg ..
  have hopens : (s.add f opener r mem.page fops).opener f = opener := Function.update_self ..
  constructor
  case slab => exact h.slab.alloc hmem.page hr
  case outside =>
    intro i page hpage
    simp only [Files.add] at hpage ⊢
    split_ifs at hpage
    · rcases List.mem_cons.mp hpage with rfl | hold
      · exact hmem.apart i
      · exact h.outside i page hold
    · exact h.outside i page hpage
  case single =>
    intro g t hg
    rcases hcases g t hg with ⟨-, rfl⟩ | ⟨-, hold⟩
    · rfl
    · exact h.single g t hold
  case given =>
    intro g t hg
    rcases hcases g t hg with ⟨rfl, -⟩ | ⟨hne, hold⟩
    · rw [hself]
      exact List.mem_cons_self
    · rw [hgiven g hne]
      exact List.mem_cons_of_mem _ (h.given g t hold)
  case apart =>
    intro g t k u hg hk heq
    rcases hcases g t hg with ⟨rfl, -⟩ | ⟨hgf, hold⟩
    · rcases hcases k u hk with ⟨rfl, -⟩ | ⟨hkf, hkold⟩
      · rfl
      · rw [hself, hgiven k hkf] at heq
        exact absurd (h.given k u hkold) (heq ▸ hlive)
    · rcases hcases k u hk with ⟨rfl, -⟩ | ⟨hkf, hkold⟩
      · rw [hself, hgiven g hgf] at heq
        exact absurd (h.given g t hold) (heq ▸ hlive)
      · rw [hgiven g hgf, hgiven k hkf] at heq
        exact h.apart g t k u hold hkold heq
  case own =>
    intro g t hg hsocket
    rcases hcases g t hg with ⟨rfl, rfl⟩ | ⟨hne, hold⟩
    · rw [hopens] at hsocket
      rcases hfops with ⟨-, hown⟩ | ⟨hnot, -⟩
      · rw [hself]
        exact hown
      · exact absurd hsocket hnot
    · rw [hgiven g hne]
      exact h.own g t hold (hopener g hne ▸ hsocket)
  case shared =>
    intro g t hg hother
    rcases hcases g t hg with ⟨rfl, rfl⟩ | ⟨hne, hold⟩
    · rw [hopens] at hother
      rcases hfops with ⟨hsocket, -⟩ | ⟨-, hshared⟩
      · exact absurd hsocket hother
      · exact hshared
    · exact h.shared g t hold (hopener g hne ▸ hother)

/-- An open handler keeps the invariant. -/
theorem TablesInv.shares (h : TablesInv size s) {mem : Supply} (hmem : Served s mem)
    {opener : Opener} (hopener : opener ≠ .socket) {result : Opened × Files}
    (hresult : SharesOrFails s opener mem result) : TablesInv size result.2 := by
  rcases hresult with ⟨e, rfl⟩ | ⟨f, i, r, hobject, hr, rfl⟩
  · exact h
  · exact h.add hmem hobject hr (.inr ⟨hopener, i, rfl⟩)

/-- The table of a socket belongs to it alone. -/
theorem TablesInv.socket_own (h : TablesInv size s) {f : Nat} {t : FileT} (hf : s.file f = some t)
    (hsocket : s.opener f = .socket) : OwnTable s f t.fops := by
  have hown := h.own f t hf hsocket
  have hlive : t.fops ∈ s.ops.live := hown ▸ h.given f t hf
  refine ⟨hown.symm, hlive, h.not_inode hlive, fun g u hg hu heq => ?_⟩
  by_cases hother : s.opener g = .socket
  · have hgiven : s.given f = s.given g := by rw [← hown, ← h.own g u hu hother, heq]
    exact hg (h.apart f t g u hf hu hgiven).symm
  · obtain ⟨i, hi⟩ := h.shared g u hu hother
    exact h.not_inode hlive i (hi.symm.trans heq)

/-- The table of a file that is no socket is that of an inode. -/
theorem TablesInv.not_own (h : TablesInv size s) {f : Nat} {t : FileT} (hf : s.file f = some t)
    (hother : s.opener f ≠ .socket) : ¬ OwnTable s f t.fops := by
  intro hown
  obtain ⟨i, hi⟩ := h.shared f t hf hother
  exact hown.inode i hi.symm

/-- The release of a socket keeps the invariant. -/
theorem TablesInv.dealloc (h : TablesInv size s) {f : Nat} (hsocket : s.opener f = .socket)
    {r : Except Errno Unit} (hret : fileGenericDealloc s f = some (r, s')) : TablesInv size s' := by
  unfold fileGenericDealloc at hret
  cases hf : s.file f with
  | none =>
      rw [hf] at hret
      exact absurd hret (by simp)
  | some t =>
      rw [hf] at hret
      have hown := h.socket_own hf hsocket
      have hcount := h.single f t hf
      have hpos : t.fops ≠ 0 := by
        have hslot : t.fops ∈ s.ops.pages.flatMap (slots s.ops.cache.itemSize) :=
          h.slab.perm.mem_iff.mp (List.mem_append_left _ (List.mem_append_left _ hown.live))
        obtain ⟨page, hpage, hmem⟩ := List.mem_flatMap.mp hslot
        have hbounds := mem_slots_bounds hmem
        have hpage := h.slab.pages_pos page hpage
        omega
      have hfree : mmuCacheFreeEntry (some s.ops.cache) t.fops =
          .ok { s.ops.cache with freeChunks := appendAfterHead s.ops.cache.freeChunks t.fops } :=
        if_neg hpos
      simp only [hcount, gt_iff_lt, lt_self_iff_false, if_false, hfree, Option.some.injEq,
        Prod.mk.injEq] at hret
      obtain ⟨-, rfl⟩ := hret
      have hcases : ∀ g u, Function.update s.file f none g = some u → g ≠ f ∧ s.file g = some u := by
        intro g u hg
        by_cases hgf : g = f
        · subst hgf
          exact absurd hg (by simp)
        · rw [Function.update_of_ne hgf] at hg
          exact ⟨hgf, hg⟩
      refine ⟨h.slab.free hown.live hfree, h.outside, ?_, ?_, ?_, ?_, ?_⟩
      · intro g u hg
        exact h.single g u (hcases g u hg).2
      · intro g u hg
        obtain ⟨hgf, hold⟩ := hcases g u hg
        refine (List.mem_erase_of_ne fun heq => hgf ?_).mpr (h.given g u hold)
        exact h.apart g u f t hold hf (heq.trans hown.given.symm)
      · intro g u k v hg hk
        exact h.apart g u k v (hcases g u hg).2 (hcases k v hk).2
      · intro g u hg
        exact h.own g u (hcases g u hg).2
      · intro g u hg
        exact h.shared g u (hcases g u hg).2

/-- Every call that returns no shared table keeps the invariant. -/
theorem TablesInv.step {call : FileCall} (h : TablesInv size s) (hstep : FileStep s call s')
    (hgood : SharesNothing s call) : TablesInv size s' := by
  cases hstep with
  | @openInitramfs dntr mode mem allocated hmem =>
      have hfile := h.shares hmem (by simp) (initramfsFile_shares s dntr mode mem)
      unfold initramfsFileOpen
      rcases hresult : initramfsFile s dntr mode mem with ⟨r, s₁⟩
      rw [hresult] at hfile
      cases r with
      | error e => exact hfile
      | ok f =>
          rcases hgood with rfl | hrefused
          · exact hfile
          · obtain ⟨i, r, rfl, hmode, hregular, hobject, -⟩ := initramfsFile_ok hresult
            have hnone := hrefused i rfl hmode hregular
            exact absurd (hnone.symm.trans hobject) (by simp)
  | @openTty dntr mode mem kbd mem' hmem hmem' =>
      have hfile := h.shares hmem (by simp) (ttyFile_shares s dntr mode mem)
      unfold ttyOpen
      generalize ttyFile s dntr mode mem = result at hfile hmem'
      rcases result with ⟨r, s₁⟩
      cases r with
      | error e => exact hfile
      | ok f =>
          cases kbd with
          | none => exact hfile
          | some i =>
              have hkbd := hfile.shares hmem' (by simp) (kbdOpen_shares s₁ i oRdonly mem')
              simp only
              generalize kbdOpen s₁ i oRdonly mem' = result at hkbd
              rcases result with ⟨r, s₂⟩
              cases r <;> exact hkbd
  | @openKbd i mode mem hmem => exact h.shares hmem (by simp) (kbdOpen_shares s i mode mem)
  | @socket mem hmem =>
      unfold socketAlloc
      rcases fileGenericAlloc_cases s .socket mem with ⟨-, e, hret⟩ | ⟨f, r, hobject, hr, hret⟩
      · rw [hret]
        exact h
      · rw [hret]
        exact h.add hmem hobject hr (.inl ⟨rfl, rfl⟩)
  | @close _ closer f r hret =>
      rw [closer.close_eq] at hret
      exact h.dealloc hgood hret

/-- From the invariant, a call returns only tables that belong to their files just when it returns no
shared one. -/
theorem TablesInv.returns_iff {call : FileCall} (h : TablesInv size s)
    (hstep : FileStep s call s') :
    (∀ s₁ f, Deallocs s call s₁ f → ReturnsOwn s₁ f) ↔ SharesNothing s call := by
  constructor
  · intro hall
    cases hstep with
    | @openInitramfs dntr mode mem allocated hmem =>
        by_cases hok : allocated = true
        · exact .inl hok
        · refine .inr fun i hdntr hmode hregular => ?_
          by_contra hobject
          rw [Bool.not_eq_true] at hok
          subst hok hdntr hmode
          have hresult : initramfsFile s (some i) oRdonly mem = shareFile s .initramfs i mem := by
            simp [initramfsFile, hregular]
          rcases shareFile_cases s .initramfs i mem with ⟨hnone, -⟩ | ⟨f, r, hf, hr, hdone⟩
          · exact hobject hnone
          · have hown := hall _ f (.noMemory (hresult.trans hdone)) _ (Function.update_self ..) le_rfl
            exact hown.inode i rfl
    | openTty => trivial
    | openKbd => trivial
    | socket => trivial
    | @close _ closer f r hret =>
        rw [closer.close_eq] at hret
        by_contra hother
        cases hf : s.file f with
        | none => exact absurd hret (by simp [fileGenericDealloc, hf])
        | some t =>
            have hown := hall s f .close t hf (h.single f t hf).le
            exact h.not_own hf hother hown
  · intro hgood s₁ f hdealloc
    cases hdealloc with
    | close =>
        intro t hf hcount
        exact h.socket_own hf hgood
    | noMemory hfile =>
        obtain ⟨i, r, rfl, hmode, hregular, hobject, -⟩ := initramfsFile_ok hfile
        rcases hgood with hok | hrefused
        · exact absurd hok (by simp)
        · exact absurd ((hrefused i rfl hmode hregular).symm.trans hobject) (by simp)

/-! ## Runs -/

/-- `sizeof(file_ops_t)`. -/
def fileOpsSize : Nat := 40

/-- The state after `file_init`: no file is allocated, and the cache of the tables has its first page,
which is apart from the tables of the inodes. -/
structure FilesBoot (s : Files) (page : Nat) : Prop where
  page_pos : 0 < page
  created : mmuCacheCreate fileOpsSize page = .ok s.ops.cache
  pages : s.ops.pages = [page]
  live : s.ops.live = []
  file : ∀ f, s.file f = none
  apart : ∀ i, ¬ (page ≤ (s.inode i).fops ∧ (s.inode i).fops < page + pageSize)

theorem FilesBoot.inv {page : Nat} (h : FilesBoot s page) : TablesInv fileOpsSize s := by
  have hslab : s.ops = ⟨s.ops.cache, [page], []⟩ := by rw [← h.pages, ← h.live]
  have hnone : ∀ f t, s.file f ≠ some t := fun f t hf => absurd ((h.file f).symm.trans hf) (by simp)
  constructor
  case slab =>
    rw [hslab]
    exact SlabInv.create h.page_pos h.created
  case outside =>
    intro i b hb
    rw [h.pages, List.mem_singleton] at hb
    rw [hb]
    exact h.apart i
  case single => exact fun f t hf => absurd hf (hnone f t)
  case given => exact fun f t hf => absurd hf (hnone f t)
  case apart => exact fun f t _ _ hf => absurd hf (hnone f t)
  case own => exact fun f t hf => absurd hf (hnone f t)
  case shared => exact fun f t hf => absurd hf (hnone f t)

/-- In a run, every table that `file_generic_dealloc` returns to the cache was allocated for that
file, was not returned before, and is the table of no inode and of no other file, just when every file
that is closed is a socket and no open handler of initramfs lacks memory for its private data. -/
theorem file_tables_safe_iff {page : Nat} (hboot : FilesBoot s page) (calls : List FileCall) :
    (∀ pre call t u, pre ++ [call] <+: calls → Run FileStep s pre t → FileStep t call u →
        ∀ t₁ f, Deallocs t call t₁ f → ReturnsOwn t₁ f) ↔
      ∀ pre call t u, pre ++ [call] <+: calls → Run FileStep s pre t → FileStep t call u →
        SharesNothing t call := by
  have hkeep : ∀ v call w, TablesInv fileOpsSize v → FileStep v call w → SharesNothing v call →
      TablesInv fileOpsSize w := fun v call w hv hstep hgood => hv.step hstep hgood
  apply Run.steps_iff hkeep ?_ hboot.inv calls
  intro v call w hv hstep
  exact hv.returns_iff hstep

/-- The cache of the tables, with its first page at 4096. -/
def fileOpsCache : MmCache where
  itemSize := 40
  capacity := 102
  freeList := some ⟨101, 4096, 4096⟩
  usedList := []
  freeChunks := []

/-- No file; the table of every inode is at 36864. -/
def bootFiles : Files where
  inode _ := ⟨36864, true⟩
  file _ := none
  ops := ⟨fileOpsCache, [4096], []⟩
  given _ := 0
  opener _ := .socket

theorem bootFiles_boot : FilesBoot bootFiles 4096 := by
  refine ⟨by simp, by decide +kernel, rfl, rfl, fun _ => rfl, fun i => ?_⟩
  simp [bootFiles, pageSize]

/-- The object at 1 is free, and so is the page at 8192. -/
def nextSupply : Supply := ⟨some 1, 8192⟩

/-- A socket is opened and released. -/
def socketCalls : List FileCall := [.socket nextSupply, .close .generic 1]

/-- The files with a socket. -/
def socketFiles : Files := (socketAlloc bootFiles nextSupply).2

theorem nextSupply_served {s : Files} (hfile : s.file 1 = none) (hpages : s.ops.pages = [4096])
    (hinode : s.inode = bootFiles.inode) : Served s nextSupply := by
  refine ⟨?_, ?_, fun i => ?_⟩
  · intro f hf
    obtain rfl := Option.some.inj hf
    exact hfile
  · rw [hpages]
    exact ⟨by simp [nextSupply], by simp [nextSupply, Apart, pageSize]⟩
  · rw [hinode]
    simp [bootFiles, nextSupply, pageSize]

theorem fileGenericDealloc_opener {f : Nat} {r : Except Errno Unit}
    (hret : fileGenericDealloc s f = some (r, s')) : s'.opener = s.opener := by
  unfold fileGenericDealloc at hret
  cases hf : s.file f with
  | none =>
      rw [hf] at hret
      exact absurd hret (by simp)
  | some t =>
      simp only [hf] at hret
      split_ifs at hret
      · obtain ⟨-, rfl⟩ := Prod.mk.inj (Option.some.inj hret)
        rfl
      · obtain ⟨-, rfl⟩ := Prod.mk.inj (Option.some.inj hret)
        rfl

/-- The table of a socket may be returned. -/
theorem socketFiles_returnsOwn : ReturnsOwn socketFiles 1 := by
  have hsocket : FileStep bootFiles (.socket nextSupply) socketFiles :=
    .socket (nextSupply_served rfl rfl rfl)
  have hclose : FileStep socketFiles (.close .generic 1)
      (((fileGenericDealloc socketFiles 1).map Prod.snd).getD socketFiles) := .close rfl
  have hgood : ∀ pre call t u, pre ++ [call] <+: socketCalls → Run FileStep bootFiles pre t →
      FileStep t call u → SharesNothing t call := by
    intro pre call t u hpre hrun hstep
    -- Only sockets are made in this run.
    have hsub : ∀ c ∈ pre, c ∈ socketCalls :=
      fun c hc => hpre.subset (List.mem_append_left _ hc)
    have hopener : ∀ f, t.opener f = .socket := by
      apply Run.invariant (fun v => ∀ f, v.opener f = .socket) ?_ (hrun.restrict hsub)
      · exact fun _ => rfl
      · rintro v c w hv ⟨hvw, hc⟩ f
        rcases List.mem_pair.mp hc with rfl | rfl
        · cases hvw with
          | socket hmem =>
              rcases fileGenericAlloc_cases v .socket nextSupply with
                ⟨-, e, hret⟩ | ⟨g, r, -, -, hret⟩
              · rw [socketAlloc, hret]
                exact hv f
              · rw [socketAlloc, hret]
                by_cases hfg : f = g
                · rw [hfg]
                  exact Function.update_self ..
                · exact (Function.update_of_ne hfg ..).trans (hv f)
        · cases hvw with
          | close hret =>
              rw [fileGenericDealloc_opener hret]
              exact hv f
    have hcall : call ∈ socketCalls := hpre.subset (by simp)
    rcases List.mem_pair.mp hcall with rfl | rfl
    · trivial
    · exact hopener 1
  have hsafe := (file_tables_safe_iff bootFiles_boot socketCalls).mpr hgood
  exact hsafe [.socket nextSupply] _ socketFiles _ List.prefix_rfl (.snoc .nil hsocket) hclose _ 1
    .close

/-- A file of initramfs is opened. -/
def openedFiles : Files := (initramfsFileOpen bootFiles (some 0) oRdonly nextSupply true).2

/-- The file is closed again. -/
def closedFiles : Files := ((initramfsFileClose openedFiles 1).map Prod.snd).getD openedFiles

/-- A socket is opened after that. -/
def reusedFiles : Files := (socketAlloc closedFiles nextSupply).2

/-- Closing a file of initramfs returns the table of its inode to the cache, and the next socket gets
it, so that the operations of the socket are stored into the table of the inode. -/
theorem closing_initramfs_file_frees_inode_table :
    FilesBoot bootFiles 4096 ∧
      (∃ calls, Run FileStep bootFiles calls openedFiles) ∧
      FileStep openedFiles (.close .initramfs 1) closedFiles ∧
      Deallocs openedFiles (.close .initramfs 1) openedFiles 1 ∧ ¬ ReturnsOwn openedFiles 1 ∧
      FileStep closedFiles (.socket nextSupply) reusedFiles ∧
      (reusedFiles.file 1).map FileT.fops = some (reusedFiles.inode 0).fops := by
  refine ⟨bootFiles_boot, ⟨[.openInitramfs (some 0) oRdonly nextSupply true], ?_⟩, .close rfl,
    .close, ?_, ?_, rfl⟩
  · exact .snoc .nil (.openInitramfs (nextSupply_served rfl rfl rfl))
  · intro hown
    exact (hown ⟨36864, 1⟩ rfl le_rfl).inode 0 rfl
  · exact .socket (nextSupply_served rfl rfl rfl)

end Fs
end Micael
