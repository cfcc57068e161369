import Mathlib.Tactic
import Micael.Fs.Contexts
import Micael.Kernel.Util

/-!
# Growing a descriptor table

`vfs_alloc_fd` moves the table of a file context to a larger one.  It raises `numfd` first, and the number
of bytes that it copies is eight for each of the new descriptors less one byte, so that every copy reads
seven bytes behind the old table.  A failure of `file_generic_alloc` comes after the table was replaced,
with the lock held.

The two tables are blocks of the heap in one memory.  `kzalloc` returns a block or stops the kernel, and
`file_generic_alloc` a file or null; what they return are arguments of a call.

Main results:

- Theorem {lit}`FdCtx.vfsAllocFd_kept`: the entries of the old table are those of the new one.
- Theorem {lit}`FdCtx.vfsAllocFd_abstract`: a call does to the context what it does to the record of it.
- Theorem {lit}`vfs_alloc_fd_right_iff`: a run is right when its first call does not get to the copy.
-/

namespace Micael
namespace Fs

open Foundation Kernel

/-! ## Calls -/

/-- A `file_ctx_t` and the memory its table lies in; its `count` is not used. -/
structure FdCtx where
  lock : Bool
  numfd : Int32
  fd : Nat
  mem : Memory

/-- What a call is given: the block that `kzalloc` returns, and the file that `file_generic_alloc` returns,
which may be null. -/
structure FdCall where
  table : Option Nat
  file : UInt64

/-- What a call returns, what it leaves, and how many bytes it read from the old table on. -/
structure FdResult where
  ret : Except Errno Int32
  ctx : FdCtx
  copied : Nat

/-- `sizeof(file_t *) * numfd`. -/
def tableSize (numfd : Int32) : Nat := (8 * numfd.toInt % 2 ^ 64).toNat

/-- `sizeof(file_t *) * numfd - 1`. -/
def copySize (numfd : Int32) : Nat := ((8 * numfd.toInt - 1) % 2 ^ 64).toNat

/-- The address of an entry of a table. -/
def entryAddr (table : Nat) (i : Int) : Nat := (table + 8 * i).toNat

/-- `vfs_alloc_fd` for a context that is not null. -/
def FdCtx.vfsAllocFd (ctx : FdCtx) (call : FdCall) : Except Halt FdResult :=
  if ctx.lock then .error .hang
  else
    let ret := ctx.numfd
    let numfd := ctx.numfd + 1
    match call.table with
    | none => .error .kassert
    | some fd =>
        let zeroed := ctx.mem.fill fd (tableSize numfd) 0
        let copied := kmemcpy zeroed fd zeroed ctx.fd (copySize numfd)
        let mem := copied.store (entryAddr fd ret.toInt) 8 call.file.toNat
        if call.file = 0 then .ok ⟨.error .enomem, ⟨true, numfd, fd, mem⟩, copySize numfd⟩
        else .ok ⟨.ok ret, ⟨false, numfd, fd, mem⟩, copySize numfd⟩

/-- The file of a descriptor. -/
def FdCtx.entry (ctx : FdCtx) (i : Nat) : Nat := ctx.mem.load (entryAddr ctx.fd i) 8

/-! ## What is promised of a call -/

/-- What a call does to a context is right. -/
structure FdResult.Right (ctx : FdCtx) (r : FdResult) : Prop where
  /-- A success returns the descriptor behind the old ones. -/
  fresh : ∀ d, r.ret = .ok d → d = ctx.numfd ∧ r.ctx.numfd = ctx.numfd + 1
  /-- The old descriptors have the files they had. -/
  kept : ∀ i : Nat, i < ctx.numfd.toInt → r.ctx.entry i = ctx.entry i
  /-- The copy reads bytes of the old table only. -/
  inside : r.copied ≤ 8 * ctx.numfd.toInt.toNat
  /-- A failure changes nothing. -/
  undone : r.ret = .error .enomem →
    r.ctx.numfd = ctx.numfd ∧ r.ctx.fd = ctx.fd ∧ r.ctx.lock = ctx.lock

/-- All calls of a run are right, up to one that does not return. -/
def FdRunRight : FdCtx → List FdCall → Prop
  | _, [] => True
  | ctx, call :: calls =>
      match ctx.vfsAllocFd call with
      | .error _ => True
      | .ok r => r.Right ctx ∧ FdRunRight r.ctx calls

/-! ## A call that returns -/

section Call

variable {ctx : FdCtx} {call : FdCall} {r : FdResult}

/-- The calls that return, and what they return. -/
theorem FdCtx.vfsAllocFd_cases (h : ctx.vfsAllocFd call = .ok r) :
    ctx.lock = false ∧ ∃ fd, call.table = some fd ∧
      (r.ret = if call.file = 0 then .error .enomem else .ok ctx.numfd) ∧
      r.copied = copySize (ctx.numfd + 1) ∧
      r.ctx.lock = decide (call.file = 0) ∧ r.ctx.numfd = ctx.numfd + 1 ∧ r.ctx.fd = fd ∧
      r.ctx.mem = (kmemcpy (ctx.mem.fill fd (tableSize (ctx.numfd + 1)) 0) fd
        (ctx.mem.fill fd (tableSize (ctx.numfd + 1)) 0) ctx.fd (copySize (ctx.numfd + 1))).store
          (entryAddr fd ctx.numfd.toInt) 8 call.file.toNat := by
  rw [FdCtx.vfsAllocFd] at h
  by_cases hlock : ctx.lock = true
  · rw [if_pos hlock] at h
    cases h
  · rw [if_neg hlock] at h
    cases htable : call.table with
    | none =>
        rw [htable] at h
        cases h
    | some fd =>
        rw [htable] at h
        refine ⟨Bool.eq_false_iff.mpr hlock, fd, rfl, ?_⟩
        dsimp only at h
        by_cases hfile : call.file = 0
        · rw [if_pos hfile] at h
          obtain rfl := Except.ok.inj h
          simp only [if_pos hfile, decide_eq_true hfile, and_self]
        · rw [if_neg hfile] at h
          obtain rfl := Except.ok.inj h
          simp only [if_neg hfile, decide_eq_false hfile, and_self]

/-- A call returns when the lock is free and the heap has a block. -/
theorem FdCtx.vfsAllocFd_returns_iff :
    (∃ r, ctx.vfsAllocFd call = .ok r) ↔ ctx.lock = false ∧ call.table ≠ none := by
  constructor
  · rintro ⟨r, hr⟩
    obtain ⟨hlock, fd, htable, -⟩ := FdCtx.vfsAllocFd_cases hr
    exact ⟨hlock, by simp [htable]⟩
  · rintro ⟨hlock, htable⟩
    obtain ⟨fd, hfd⟩ := Option.ne_none_iff_exists'.mp htable
    rw [FdCtx.vfsAllocFd, if_neg (by simp [hlock]), hfd]
    dsimp only
    split
    · exact ⟨_, rfl⟩
    · exact ⟨_, rfl⟩

/-- The next descriptor, without a wrap. -/
theorem toInt_succ {n : Int32} (h : n.toInt < 2 ^ 31 - 1) : (n + 1).toInt = n.toInt + 1 := by
  have hlow := n.le_toInt
  have hone : (1 : Int32).toInt = 1 := by decide
  rw [Int32.toInt_add, hone, Int.bmod_eq_of_le (by omega) (by omega)]

theorem toInt_succ_wraps {n : Int32} (h : n.toInt = 2 ^ 31 - 1) : (n + 1).toInt = -2 ^ 31 := by
  have hone : (1 : Int32).toInt = 1 := by decide
  rw [Int32.toInt_add, hone, h]
  decide

/-- Every copy reads behind the old table. -/
theorem lt_copySize (n : Int32) : 8 * n.toInt.toNat < copySize (n + 1) := by
  have hlow := n.le_toInt
  have hhigh := n.toInt_lt
  by_cases hwraps : n.toInt = 2 ^ 31 - 1
  · rw [copySize, toInt_succ_wraps hwraps]
    omega
  · rw [copySize, toInt_succ (by omega)]
    omega

/-- The number of bytes that a copy reads behind the old table. -/
theorem copySize_eq {n : Int32} (hlow : 0 ≤ n.toInt) (hhigh : n.toInt < 2 ^ 31 - 1) :
    copySize (n + 1) = 8 * n.toInt.toNat + 7 := by
  rw [copySize, toInt_succ hhigh]
  omega

theorem entryAddr_natCast (table i : Nat) : entryAddr table i = table + 8 * i := by
  rw [entryAddr]
  omega

/-- The entries of the old table are those of the new one, and the new entry is the file, when the two
tables do not overlap. -/
theorem FdCtx.vfsAllocFd_kept (h : ctx.vfsAllocFd call = .ok r) {n : Nat} (hn : ctx.numfd.toInt = n)
    (hmax : n < 2 ^ 31 - 1)
    (hapart : r.ctx.fd + 8 * (n + 1) ≤ ctx.fd ∨ ctx.fd + 8 * n ≤ r.ctx.fd) :
    (∀ i < n, r.ctx.entry i = ctx.entry i) ∧ r.ctx.entry n = call.file.toNat := by
  obtain ⟨-, fd, -, -, -, -, -, hfd, hmem⟩ := FdCtx.vfsAllocFd_cases h
  have hcopy : copySize (ctx.numfd + 1) = 8 * n + 7 := by
    rw [copySize_eq (by omega) (by omega), hn, Int.toNat_natCast]
  have hsize : tableSize (ctx.numfd + 1) = 8 * (n + 1) := by
    rw [tableSize, toInt_succ (by omega), hn]
    omega
  rw [hfd] at hapart
  rw [hcopy, hsize, hn, entryAddr_natCast] at hmem
  have hwidth : call.file.toNat % 256 ^ 8 = call.file.toNat := Nat.mod_eq_of_lt call.file.toNat_lt
  constructor
  · intro i hi
    rw [FdCtx.entry, FdCtx.entry, hfd, hmem, entryAddr_natCast, entryAddr_natCast,
      Memory.load_store_of_disjoint (by omega)]
    apply Memory.load_eq_of_bytes
    intro k hk
    have hsource : ctx.fd + (fd + 8 * i + k - fd) = ctx.fd + 8 * i + k := by omega
    rw [kmemcpy_apply, if_pos (by omega), hsource, Memory.fill_of_outside (by omega)]
  · rw [FdCtx.entry, hfd, hmem, entryAddr_natCast, Memory.load_store_self, hwidth]

/-- A call does to the context what `vfs_alloc_fd` does to the record of it, in which a table has a number
and no bytes. -/
theorem FdCtx.vfsAllocFd_abstract (h : ctx.vfsAllocFd call = .ok r) (hlow : 0 ≤ ctx.numfd.toInt)
    (hhigh : ctx.numfd.toInt < 2 ^ 31 - 1) {s : CtxState} {c : Nat}
    (hlock : (s.fileCtxs c).lock = ctx.lock) (hnumfd : (s.fileCtxs c).numfd = ctx.numfd.toInt) :
    ∃ ret s', Fs.vfsAllocFd (some c) (if call.file = 0 then none else some call.file.toNat) s =
        .ok (ret, s') ∧
      ret = r.ret.map (fun d => d.toInt.toNat) ∧
      (s'.fileCtxs c).lock = r.ctx.lock ∧ (s'.fileCtxs c).numfd = r.ctx.numfd.toInt := by
  obtain ⟨hfree, fd, -, hret, -, hlock', hnumfd', -⟩ := FdCtx.vfsAllocFd_cases h
  have hnext : ((s.fileCtxs c).numfd + 1 : Nat) = (ctx.numfd + 1).toInt := by
    rw [toInt_succ hhigh, ← hnumfd]
    rfl
  have hsame : (s.fileCtxs c).numfd = ctx.numfd.toInt.toNat := by omega
  rw [Fs.vfsAllocFd, hlock, hfree, hret, hlock', hnumfd']
  by_cases hfile : call.file = 0
  · simp only [if_pos hfile]
    refine ⟨_, _, rfl, rfl, ?_, ?_⟩
    · simp [hfile]
    · simpa using hnext
  · simp only [if_neg hfile]
    refine ⟨_, _, rfl, ?_, ?_, ?_⟩
    · simp [Except.map, hsame]
    · simp [hfile]
    · simpa using hnext

end Call

/-! ## Runs -/

section Runs

variable {ctx : FdCtx} {call : FdCall} {calls : List FdCall}

/-- No call that returns is right. -/
theorem FdResult.not_right {r : FdResult} (h : ctx.vfsAllocFd call = .ok r) : ¬ r.Right ctx := by
  intro hright
  obtain ⟨-, fd, -, -, hcopied, -⟩ := FdCtx.vfsAllocFd_cases h
  have hinside := hright.inside
  rw [hcopied] at hinside
  exact absurd (lt_copySize ctx.numfd) (by omega)

/-- After a failure every further call waits for the lock. -/
theorem FdCtx.vfsAllocFd_hangs {r : FdResult} (h : ctx.vfsAllocFd call = .ok r)
    (hfails : r.ret = .error .enomem) (next : FdCall) : r.ctx.vfsAllocFd next = .error .hang := by
  obtain ⟨-, fd, -, hret, -, hlock, -⟩ := FdCtx.vfsAllocFd_cases h
  have hfile : call.file = 0 := by
    by_contra hfile
    rw [hret, if_neg hfile] at hfails
    cases hfails
  rw [FdCtx.vfsAllocFd, hlock, decide_eq_true hfile, if_pos rfl]

/-- For every context, the calls of a run are right just when the first one does not return: the lock is
held, or the heap has no block. -/
theorem vfs_alloc_fd_right_iff (ctx : FdCtx) (calls : List FdCall) :
    FdRunRight ctx calls ↔ ∀ call ∈ calls.head?, ctx.lock = true ∨ call.table = none := by
  cases calls with
  | nil => exact iff_of_true trivial fun call hcall => by cases hcall
  | cons call calls =>
      have hfirst : FdRunRight ctx (call :: calls) ↔ ¬ ∃ r, ctx.vfsAllocFd call = .ok r := by
        rw [FdRunRight]
        cases hresult : ctx.vfsAllocFd call with
        | error e => exact iff_of_true trivial (by simp)
        | ok r => exact iff_of_false (fun h => FdResult.not_right hresult h.1) (not_not.mpr ⟨r, rfl⟩)
      rw [hfirst, FdCtx.vfsAllocFd_returns_iff, not_and_or, Bool.not_eq_false, not_not]
      constructor
      · intro h call' hcall
        obtain rfl : call = call' := Option.some.inj hcall
        exact h
      · intro h
        exact h call rfl

/-- The context of a new task, with three descriptors. -/
def threeFds : FdCtx := ⟨false, 3, 4096, fun _ => 0⟩

/-- It gets a fourth descriptor, and 31 bytes of a table of 24 are read; when there is no file for a fifth
one, `numfd` is 5 and the lock is held. -/
theorem fourth_fd_copies_too_much :
    (∃ r, threeFds.vfsAllocFd ⟨some 8192, 12288⟩ = .ok r ∧ r.ret = .ok 3 ∧ r.copied = 31 ∧
      ∃ r', r.ctx.vfsAllocFd ⟨some 16384, 0⟩ = .ok r' ∧ r'.ret = .error .enomem ∧
        r'.ctx.numfd = 5 ∧ r'.ctx.lock = true) ∧
      ¬ FdRunRight threeFds [⟨some 8192, 12288⟩, ⟨some 16384, 0⟩] := by
  obtain ⟨r, hr⟩ : ∃ r, threeFds.vfsAllocFd ⟨some 8192, 12288⟩ = .ok r :=
    FdCtx.vfsAllocFd_returns_iff.mpr ⟨rfl, by simp⟩
  obtain ⟨-, fd, -, hret, hcopied, hlock, hnumfd, -⟩ := FdCtx.vfsAllocFd_cases hr
  obtain ⟨r', hr'⟩ : ∃ r', r.ctx.vfsAllocFd ⟨some 16384, 0⟩ = .ok r' :=
    FdCtx.vfsAllocFd_returns_iff.mpr ⟨hlock, by simp⟩
  obtain ⟨-, fd', -, hret', -, hlock', hnumfd', -⟩ := FdCtx.vfsAllocFd_cases hr'
  constructor
  · refine ⟨r, hr, hret, ?_, r', hr', hret', ?_, hlock'⟩
    · rw [hcopied]
      decide
    · rw [hnumfd', hnumfd]
      decide
  · intro hrun
    rw [FdRunRight, hr] at hrun
    exact FdResult.not_right hr hrun.1

end Runs

end Fs
end Micael
