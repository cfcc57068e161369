import Micael.Fs.LookupContract

/-!
# Cutting a path in memory

`vfs_extract_child` cuts a path in place: it writes a zero over the slash behind a component and moves the path
pointer behind it.  `vfs_find_bootstrap` compares the first component of a copy with the names of the mount
points.

A block of memory is the list of its bytes, and a pointer into it is an index.  A read or a write outside of the
block stops the model.  A string that is only read is the bytes from its pointer on.

Main results:

- Theorem {lit}`vfsExtractChildAt_refines`: a call returns the component that comes first, and leaves the rest.
- Theorem {lit}`extractRun_components`: repeated calls return all components.
- Theorem {lit}`vfsFindBootstrapAt_refines`: where the walk of an absolute path starts.
- Theorem {lit}`path_splitting`: what both functions do, for every path.
-/

namespace Micael
namespace Fs

/-! ## Strings -/

/-- `kstrlen`. -/
def kstrlen : List UInt8 → Option Nat
  | [] => none
  | c :: str => if c = 0 then some 0 else (kstrlen str).map (· + 1)

/-- `kstrdup`: the new block. -/
def kstrdup (str : List UInt8) : Option (List UInt8) := (kstrlen str).map fun n => str.take n ++ [0]

/-- `kstrncmp` with a number of characters to go; characters are signed. -/
def kstrncmp : List UInt8 → List UInt8 → Nat → Option Int
  | c :: s1, d :: s2, len =>
      if c ≠ 0 ∧ d ≠ 0 ∧ 0 < len then
        if c.toInt8 < d.toInt8 then some (-1)
        else if d.toInt8 < c.toInt8 then some 1
        else kstrncmp s1 s2 (len - 1)
      else some (if c = d then 0 else 1)
  | _, _, _ => none

/-- `kstrcmp_s`. -/
def kstrcmpSBlock (s1 s2 : List UInt8) : Option Int := (kstrlen s1).bind fun len => kstrncmp s1 s2 len

/-- The string at a pointer. -/
def stringAt (buf : List UInt8) (ptr : Nat) : Name := (buf.drop ptr).takeWhile (· ≠ 0)

/-! ## Paths -/

/-- The loop of `vfs_extract_child` from `i` on, with a number of characters to go: where it ends. -/
def extractLoop (buf : List UInt8) (ptr : Nat) : Nat → Nat → Option Nat
  | 0, i => some i
  | n + 1, i =>
      (buf[ptr + i]?).bind fun c => if c ≠ slash ∧ c ≠ 0 then extractLoop buf ptr n (i + 1) else some i

/-- What `vfs_extract_child` leaves and returns. -/
structure Extracted where
  buf : List UInt8
  /-- `*path`. -/
  path : Option Nat
  child : Option Nat

/-- `vfs_extract_child`.  The path pointer moves with the counter of the loop. -/
def vfsExtractChildAt (buf : List UInt8) (path : Nat) : Option Extracted :=
  (kstrlen (buf.drop path)).bind fun len =>
    (extractLoop buf path len 0).map fun i =>
      let child := if len = 0 then none else some path
      if i ≠ len then ⟨buf.set (path + i) 0, some (path + i + 1), child⟩ else ⟨buf, none, child⟩

/-- The loop over the mount points in `vfs_find_bootstrap`. -/
def findMount (mount : List UInt8) : List Mount → Option (Option Mount)
  | [] => some none
  | m :: mounts =>
      (kstrcmpSBlock (m.name ++ [0]) mount).bind fun r =>
        if r = 0 then some (some m) else findMount mount mounts

/-- The part of `vfs_find_bootstrap` for a mount point. -/
def stepOver (buf : List UInt8) (path : Nat) (mount : List UInt8) (m : Mount) : Option (Option Nat × Option Nat) :=
  (kstrlen mount).bind fun len =>
    (buf[path + len]?).map fun c => (m.root, if c = 0 then none else some (path + len + 1))

/-- `vfs_find_bootstrap`: the dentry, and the path pointer. -/
def vfsFindBootstrapAt {Obj : Type} (s : Vfs Obj) (buf : List UInt8) (path : Nat) :
    Option (Option Nat × Option Nat) :=
  let path := path + 1
  (buf[path]?).bind fun c =>
    if c = 0 then some (s.root, none)
    else
      (kstrdup (buf.drop path)).bind fun orig =>
        (vfsExtractChildAt orig 0).bind fun tmp =>
          tmp.child.bind fun mount =>
            (findMount (tmp.buf.drop mount) s.mountpoints).bind fun found =>
              match found with
              | some m => stepOver buf path (tmp.buf.drop mount) m
              | none => some (none, some path)

/-! ## Repeated calls -/

/-- Calls of `vfs_extract_child` until the path pointer is null: what they return, and the block at the end. -/
inductive ExtractRun : List UInt8 → Nat → List (Option Nat) → List UInt8 → Prop
  | last {buf : List UInt8} {path : Nat} {r : Extracted} :
      vfsExtractChildAt buf path = some r → r.path = none → ExtractRun buf path [r.child] r.buf
  | more {buf buf' : List UInt8} {path next : Nat} {r : Extracted} {children : List (Option Nat)} :
      vfsExtractChildAt buf path = some r → r.path = some next → ExtractRun r.buf next children buf' →
      ExtractRun buf path (r.child :: children) buf'

/-- A path whose slashes are zeros. -/
def cutSlashes (path : Name) : Name := path.map fun c => if c = slash then 0 else c

/-- What is returned for components: the last one is null if it is empty. -/
def returnedChildren : List Name → List (Option Name)
  | [] => []
  | [last] => [if last = [] then none else some last]
  | c :: comps => some c :: returnedChildren comps

/-! ## Facts about strings -/

section Strings

variable {str rest : List UInt8}

theorem kstrlen_append (hstr : 0 ∉ str) (rest : List UInt8) : kstrlen (str ++ 0 :: rest) = some str.length := by
  induction str with
  | nil => rfl
  | cons c str ih =>
      rw [List.mem_cons, not_or] at hstr
      rw [List.cons_append, kstrlen, if_neg (Ne.symm hstr.1), ih hstr.2]
      rfl

theorem kstrdup_append (hstr : 0 ∉ str) (rest : List UInt8) : kstrdup (str ++ 0 :: rest) = some (str ++ [0]) := by
  rw [kstrdup, kstrlen_append hstr, Option.map_some, List.take_left]

theorem stringAt_append (pre : List UInt8) (hstr : 0 ∉ str) (rest : List UInt8) :
    stringAt (pre ++ (str ++ 0 :: rest)) pre.length = str := by
  have hclean : ∀ c ∈ str, decide (c ≠ 0) = true := fun c hc => decide_eq_true fun h => hstr (h ▸ hc)
  rw [stringAt, List.drop_left, List.takeWhile_append_of_pos hclean]
  simp

/-- The turn of `kstrncmp` in which a string ends. -/
theorem kstrncmp_of_end {c d : UInt8} (h : c = 0 ∨ d = 0) (s1 s2 : List UInt8) (len : Nat) :
    kstrncmp (c :: s1) (d :: s2) len = some (if c = d then 0 else 1) := by
  rw [kstrncmp, if_neg]
  rintro ⟨hc, hd, -⟩
  exact h.elim hc hd

/-- The turn of `kstrncmp` in which the strings differ. -/
theorem kstrncmp_of_ne {c d : UInt8} (hc : c ≠ 0) (hd : d ≠ 0) (hne : c ≠ d) :
    ∃ r ≠ 0, ∀ s1 s2 len, kstrncmp (c :: s1) (d :: s2) (len + 1) = some r := by
  by_cases hlt : c.toInt8 < d.toInt8
  · refine ⟨-1, by decide, fun s1 s2 len => ?_⟩
    rw [kstrncmp, if_pos ⟨hc, hd, Nat.succ_pos len⟩, if_pos hlt]
  · have hgt : d.toInt8 < c.toInt8 := by
      rw [Int8.lt_iff_toInt_lt] at hlt ⊢
      have hint : c.toInt8.toInt ≠ d.toInt8.toInt := by
        intro hint
        have hbyte := congrArg Int8.toUInt8 (Int8.toInt_inj.mp hint)
        exact hne hbyte
      omega
    refine ⟨1, by decide, fun s1 s2 len => ?_⟩
    rw [kstrncmp, if_pos ⟨hc, hd, Nat.succ_pos len⟩, if_neg hlt, if_pos hgt]

/-- A turn of `kstrncmp` over a common character. -/
theorem kstrncmp_cons_self {c : UInt8} (hc : c ≠ 0) (s1 s2 : List UInt8) (len : Nat) :
    kstrncmp (c :: s1) (c :: s2) (len + 1) = kstrncmp s1 s2 len := by
  rw [kstrncmp, if_pos ⟨hc, hc, Nat.succ_pos len⟩, if_neg Int8.lt_irrefl, if_neg Int8.lt_irrefl, Nat.add_sub_cancel]

/-- `kstrcmp_s` tells whether two strings are equal. -/
theorem kstrcmpSBlock_eq_zero_iff {name : List UInt8} (hname : 0 ∉ name) (hstr : 0 ∉ str) (rest : List UInt8) :
    ∃ r, kstrcmpSBlock (name ++ [0]) (str ++ 0 :: rest) = some r ∧ (r = 0 ↔ name = str) := by
  rw [kstrcmpSBlock, kstrlen_append hname, Option.bind_some]
  induction name generalizing str with
  | nil =>
      cases str with
      | nil => exact ⟨0, rfl, iff_of_true rfl rfl⟩
      | cons d str =>
          rw [List.mem_cons, not_or] at hstr
          refine ⟨1, ?_, iff_of_false (by decide) (List.cons_ne_nil d str).symm⟩
          rw [List.nil_append, List.cons_append, kstrncmp_of_end (.inl rfl), if_neg hstr.1]
  | cons c name ih =>
      rw [List.mem_cons, not_or] at hname
      cases str with
      | nil =>
          refine ⟨1, ?_, iff_of_false (by decide) (List.cons_ne_nil c name)⟩
          rw [List.cons_append, List.nil_append, kstrncmp_of_end (.inr rfl), if_neg (Ne.symm hname.1)]
      | cons d str =>
          rw [List.mem_cons, not_or] at hstr
          rw [List.cons_append, List.cons_append, List.length_cons]
          by_cases heq : c = d
          · obtain ⟨r, hr, hiff⟩ := ih hname.2 hstr.2
            refine ⟨r, ?_, by rw [heq, List.cons.injEq, hiff, eq_self, true_and]⟩
            rw [heq, kstrncmp_cons_self (Ne.symm hstr.1)]
            exact hr
          · obtain ⟨r, hr, hcall⟩ := kstrncmp_of_ne (Ne.symm hname.1) (Ne.symm hstr.1) heq
            have hne : c :: name ≠ d :: str := fun h => heq (List.cons.inj h).1
            exact ⟨r, hcall _ _ _, iff_of_false hr hne⟩

end Strings

/-! ## One call -/

section Calls

variable {pre first path rest post : List UInt8}

/-- A byte behind the beginning of a block. -/
theorem getElem?_of_drop {buf : List UInt8} {k : Nat} {c : UInt8} (h : buf.drop k = c :: rest) :
    buf[k]? = some c ∧ buf.drop (k + 1) = rest := by
  constructor
  · rw [← Nat.add_zero k, ← List.getElem?_drop, h]
    rfl
  · rw [← List.tail_drop, h]
    rfl

/-- The loop goes over characters that are not slashes, and stops behind them. -/
theorem extractLoop_eq {buf : List UInt8} {ptr n i : Nat} (hfirst : ∀ c ∈ first, c ≠ slash ∧ c ≠ 0)
    (hbuf : buf.drop (ptr + i) = first ++ rest)
    (hend : n = first.length ∨ first.length < n ∧ rest.head? = some slash) :
    extractLoop buf ptr n i = some (i + first.length) := by
  induction first generalizing n i with
  | nil =>
      rcases hend with rfl | ⟨hlt, hslash⟩
      · rfl
      · obtain ⟨n, rfl⟩ := Nat.exists_eq_succ_of_ne_zero hlt.ne'
        cases rest with
        | nil => cases hslash
        | cons c rest =>
            cases hslash
            rw [extractLoop, (getElem?_of_drop hbuf).1, Option.bind_some, if_neg fun h => h.1 rfl]
            rfl
  | cons c first ih =>
      have hn : n ≠ 0 := by
        rw [List.length_cons] at hend
        omega
      obtain ⟨n, rfl⟩ := Nat.exists_eq_succ_of_ne_zero hn
      obtain ⟨hc, hrest⟩ := getElem?_of_drop hbuf
      have hend' : n = first.length ∨ first.length < n ∧ rest.head? = some slash := by
        rw [List.length_cons] at hend
        exact hend.imp (fun h => by omega) (And.imp_left fun h => by omega)
      rw [extractLoop, hc, Option.bind_some, if_pos (hfirst c List.mem_cons_self),
        ih (fun d hd => hfirst d (List.mem_cons_of_mem c hd)) hrest hend', List.length_cons]
      congr 1
      omega

/-- A call in front of a slash: the slash becomes a zero. -/
theorem vfsExtractChildAt_slash (hfirst : slash ∉ first) (hpath : 0 ∉ first ++ slash :: path) :
    vfsExtractChildAt (pre ++ (first ++ slash :: path ++ 0 :: post)) pre.length =
      some ⟨(pre ++ first ++ [0]) ++ (path ++ 0 :: post), some (pre ++ first ++ [0]).length, some pre.length⟩ := by
  have hclean : ∀ c ∈ first, c ≠ slash ∧ c ≠ 0 := fun c hc =>
    ⟨fun h => hfirst (h ▸ hc), fun h => hpath (h ▸ List.mem_append_left _ hc)⟩
  have hdrop : (pre ++ (first ++ slash :: path ++ 0 :: post)).drop pre.length = first ++ slash :: path ++ 0 :: post :=
    List.drop_left
  have hlength : (first ++ slash :: path).length = first.length + 1 + path.length := by
    rw [List.length_append, List.length_cons]
    omega
  have hloop : extractLoop (pre ++ (first ++ slash :: path ++ 0 :: post)) pre.length
      (first ++ slash :: path).length 0 = some (0 + first.length) := by
    refine @extractLoop_eq first (slash :: path ++ 0 :: post) _ _ _ _ hclean ?_ ?_
    · rw [Nat.add_zero, hdrop, List.append_assoc]
    · exact Or.inr ⟨by omega, rfl⟩
  have hset : (pre ++ (first ++ slash :: path ++ 0 :: post)).set (pre.length + first.length) 0 =
      (pre ++ first ++ [0]) ++ (path ++ 0 :: post) := by
    rw [List.set_append_right _ _ (by omega), Nat.add_sub_cancel_left, List.append_assoc,
      List.set_append_right _ _ (Nat.le_refl _), Nat.sub_self]
    simp
  rw [vfsExtractChildAt, hdrop, kstrlen_append hpath, Option.bind_some, hloop, Option.map_some, Nat.zero_add]
  simp only [if_pos (show first.length ≠ (first ++ slash :: path).length by omega),
    if_neg (show (first ++ slash :: path).length ≠ 0 by omega), hset]
  congr 2
  simp
  omega

/-- A call for the last component. -/
theorem vfsExtractChildAt_last (hfirst : slash ∉ first) (hpath : 0 ∉ first) :
    vfsExtractChildAt (pre ++ (first ++ 0 :: post)) pre.length =
      some ⟨pre ++ (first ++ 0 :: post), none, if first = [] then none else some pre.length⟩ := by
  have hclean : ∀ c ∈ first, c ≠ slash ∧ c ≠ 0 := fun c hc =>
    ⟨fun h => hfirst (h ▸ hc), fun h => hpath (h ▸ hc)⟩
  have hdrop : (pre ++ (first ++ 0 :: post)).drop pre.length = first ++ 0 :: post := List.drop_left
  have hloop : extractLoop (pre ++ (first ++ 0 :: post)) pre.length first.length 0 = some (0 + first.length) :=
    extractLoop_eq hclean (by rw [Nat.add_zero, hdrop]) (Or.inl rfl)
  rw [vfsExtractChildAt, hdrop, kstrlen_append hpath, Option.bind_some, hloop, Option.map_some, Nat.zero_add]
  simp only [ne_eq, not_true_eq_false, if_false, List.length_eq_zero_iff]

/-- A call returns the component that comes first, and the path pointer is left at the rest. -/
theorem vfsExtractChildAt_refines (pre : List UInt8) (hpath : 0 ∉ path) (post : List UInt8) :
    ∃ r, vfsExtractChildAt (pre ++ (path ++ 0 :: post)) pre.length = some r ∧
      r.child.map (stringAt r.buf) = (vfsExtractChild path).1 ∧
      r.path.map (stringAt r.buf) = (vfsExtractChild path).2 := by
  by_cases hslash : slash ∈ path
  · obtain ⟨first, rest, rfl, hfirst⟩ := List.eq_append_cons_of_mem hslash
    have hzero : 0 ∉ first ∧ 0 ∉ rest := by
      rw [List.mem_append, not_or, List.mem_cons, not_or] at hpath
      exact ⟨hpath.1, hpath.2.2⟩
    refine ⟨_, vfsExtractChildAt_slash hfirst hpath, ?_, ?_⟩
    · rw [vfsExtractChild_slash hfirst]
      simp only [Option.map_some, Option.some.injEq, List.append_assoc, List.singleton_append]
      exact stringAt_append pre hzero.1 _
    · rw [vfsExtractChild_slash hfirst]
      exact congrArg some (stringAt_append _ hzero.2 post)
  · refine ⟨_, vfsExtractChildAt_last hslash hpath, ?_, ?_⟩
    · rw [vfsExtractChild_last hslash]
      split
      · rfl
      · exact congrArg some (stringAt_append pre hpath post)
    · rw [vfsExtractChild_last hslash]
      rfl

/-! ## All calls -/

theorem cutSlashes_self (hfirst : slash ∉ first) : cutSlashes first = first := by
  have hself : ∀ c ∈ first, (if c = slash then (0 : UInt8) else c) = id c := by
    intro c hc
    rw [if_neg (fun h : c = slash => hfirst (h ▸ hc)), id]
  exact (List.map_congr_left hself).trans (List.map_id first)

theorem cutSlashes_append_slash (hfirst : slash ∉ first) (path : Name) :
    cutSlashes (first ++ slash :: path) = first ++ 0 :: cutSlashes path := by
  have hself := cutSlashes_self hfirst
  rw [cutSlashes] at hself
  rw [cutSlashes, List.map_append, hself, List.map_cons, if_pos rfl, cutSlashes]

/-- Repeated calls return all components, one call for each, and cut the path at its slashes. -/
theorem extractRun_components (pre : List UInt8) (hpath : 0 ∉ path) (post : List UInt8) :
    ∃ children, ExtractRun (pre ++ (path ++ 0 :: post)) pre.length children (pre ++ (cutSlashes path ++ 0 :: post)) ∧
      children.length = path.count slash + 1 ∧
      children.map (Option.map (stringAt (pre ++ (cutSlashes path ++ 0 :: post)))) =
        returnedChildren (components path) := by
  induction hn : path.length using Nat.strong_induction_on generalizing path pre with
  | _ n ih =>
      by_cases hslash : slash ∈ path
      · obtain ⟨first, rest, rfl, hfirst⟩ := List.eq_append_cons_of_mem hslash
        have hzero : 0 ∉ first ∧ 0 ∉ rest := by
          rw [List.mem_append, not_or, List.mem_cons, not_or] at hpath
          exact ⟨hpath.1, hpath.2.2⟩
        have hshort : rest.length < n := by
          rw [← hn, List.length_append, List.length_cons]
          omega
        have hbuf : pre ++ (cutSlashes (first ++ slash :: rest) ++ 0 :: post) =
            pre ++ first ++ [0] ++ (cutSlashes rest ++ 0 :: post) := by
          rw [cutSlashes_append_slash hfirst]
          simp
        obtain ⟨children, hrun, hlength, hstrings⟩ := ih rest.length hshort (pre ++ first ++ [0]) hzero.2 rfl
        rw [hbuf]
        refine ⟨some pre.length :: children, .more (vfsExtractChildAt_slash hfirst hpath) rfl hrun, ?_, ?_⟩
        · rw [List.length_cons, hlength, List.count_append, List.count_cons_self,
            List.count_eq_zero_of_not_mem hfirst]
          omega
        · have hcomps : components (first ++ slash :: rest) = first :: components rest :=
            List.splitOn_append_cons_self_of_not_mem hfirst rest
          have hhead : stringAt (pre ++ first ++ [0] ++ (cutSlashes rest ++ 0 :: post)) pre.length = first := by
            rw [List.append_assoc, List.append_assoc, List.singleton_append]
            exact stringAt_append pre hzero.1 (cutSlashes rest ++ 0 :: post)
          rw [List.map_cons, Option.map_some, hhead, hstrings, hcomps]
          cases hrest : components rest with
          | nil => exact absurd hrest (List.splitOn_ne_nil slash rest)
          | cons c comps => rfl
      · rw [cutSlashes_self hslash]
        refine ⟨_, .last (vfsExtractChildAt_last hslash hpath) rfl, ?_, ?_⟩
        · rw [List.length_singleton, List.count_eq_zero_of_not_mem hslash]
        · have hcomps : components path = [path] := List.splitOn_eq_singleton hslash
          rw [hcomps, List.map_singleton, returnedChildren]
          split
          · rfl
          · rw [Option.map_some, stringAt_append pre hpath post]

/-! ## Mount points -/

variable {Obj : Type} {s : Vfs Obj}

/-- The loop over the mount points finds the first one with a name. -/
theorem findMount_eq {name : Name} (hname : 0 ∉ name) (rest : List UInt8) (mounts : List Mount)
    (hmounts : ∀ m ∈ mounts, 0 ∉ m.name) :
    findMount (name ++ 0 :: rest) mounts = some (mounts.find? fun m => m.name = name) := by
  induction mounts with
  | nil => rfl
  | cons m mounts ih =>
      obtain ⟨r, hr, hiff⟩ := kstrcmpSBlock_eq_zero_iff (hmounts m List.mem_cons_self) hname rest
      rw [findMount, hr, Option.bind_some, List.find?_cons]
      by_cases heq : m.name = name
      · rw [if_pos (hiff.mpr heq), decide_eq_true heq]
      · rw [if_neg (mt hiff.mp heq), decide_eq_false heq]
        exact ih fun m' hm' => hmounts m' (List.mem_cons_of_mem m hm')

/-- The path pointer behind the name of a mount point. -/
theorem stepOver_eq (pre : List UInt8) {name : Name} (hname : 0 ∉ name) (hpath : 0 ∉ rest) (post after : List UInt8)
    (m : Mount) :
    stepOver (pre ++ (name ++ rest ++ 0 :: post)) pre.length (name ++ 0 :: after) m =
      some (m.root, if rest = [] then none else some (pre.length + name.length + 1)) := by
  have hbyte : (pre ++ (name ++ rest ++ 0 :: post))[pre.length + name.length]? = (rest ++ 0 :: post).head? := by
    rw [List.getElem?_append_right (by omega), Nat.add_sub_cancel_left, List.append_assoc,
      List.getElem?_append_right (Nat.le_refl _), Nat.sub_self, List.head?_eq_getElem?]
  rw [stepOver, kstrlen_append hname, Option.bind_some, hbyte]
  cases rest with
  | nil => rfl
  | cons c rest =>
      rw [List.mem_cons, not_or] at hpath
      rw [List.cons_append, List.head?_cons, Option.map_some, if_neg (Ne.symm hpath.1),
        if_neg (List.cons_ne_nil c rest)]

/-- What `vfs_find_bootstrap` cuts off its copy. -/
theorem vfsExtractChildAt_copy (hpath : 0 ∉ path) (hne : path ≠ []) :
    ∃ r after, vfsExtractChildAt (path ++ [0]) 0 = some r ∧ r.child = some 0 ∧
      r.buf = path.takeWhile (· ≠ slash) ++ 0 :: after := by
  have hclean : ∀ {first : Name}, slash ∉ first → ∀ c ∈ first, decide (c ≠ slash) = true :=
    fun hfirst c hc => decide_eq_true fun h => hfirst (h ▸ hc)
  by_cases hslash : slash ∈ path
  · obtain ⟨first, rest, rfl, hfirst⟩ := List.eq_append_cons_of_mem hslash
    have hcall := @vfsExtractChildAt_slash [] first rest [] hfirst hpath
    rw [List.nil_append, List.nil_append] at hcall
    refine ⟨_, rest ++ [0], hcall, rfl, ?_⟩
    rw [List.takeWhile_append_of_pos (hclean hfirst)]
    simp
  · have hcall := @vfsExtractChildAt_last [] path [] hslash hpath
    rw [List.nil_append, if_neg hne] at hcall
    refine ⟨_, [], hcall, rfl, ?_⟩
    rw [List.takeWhile_eq_self_iff.mpr (hclean hslash)]

/-- Where the path pointer is moved for what follows the first slash: its first component is looked for among the
names of the mount points. -/
theorem vfsFindBootstrapAt_eq (pre : List UInt8) (hpath : 0 ∉ path) (hne : path ≠ []) (post : List UInt8)
    (hmounts : ∀ m ∈ s.mountpoints, 0 ∉ m.name) :
    vfsFindBootstrapAt s (pre ++ slash :: (path ++ 0 :: post)) pre.length =
      some (match s.mountpoints.find? fun m => m.name = path.takeWhile (· ≠ slash) with
        | some m =>
            (m.root, if path.dropWhile (· ≠ slash) = [] then none
              else some (pre.length + 1 + (path.takeWhile (· ≠ slash)).length + 1))
        | none => (none, some (pre.length + 1))) := by
  have hshape : pre ++ slash :: (path ++ 0 :: post) = (pre ++ [slash]) ++ (path ++ 0 :: post) := by
    rw [List.append_assoc, List.singleton_append]
  have hlength : pre.length + 1 = (pre ++ [slash]).length := by
    rw [List.length_append, List.length_singleton]
  have hsplit : path.takeWhile (· ≠ slash) ++ path.dropWhile (· ≠ slash) = path := List.takeWhile_append_dropWhile
  have hzero : 0 ∉ path.takeWhile (· ≠ slash) ∧ 0 ∉ path.dropWhile (· ≠ slash) := by
    rw [← not_or, ← List.mem_append, hsplit]
    exact hpath
  have hdrop : (pre ++ slash :: (path ++ 0 :: post)).drop (pre.length + 1) = path ++ 0 :: post := by
    rw [hshape, hlength, List.drop_left]
  obtain ⟨c, tail, hcons⟩ := List.exists_cons_of_ne_nil hne
  have hc : ¬ c = 0 := by
    rw [hcons, List.mem_cons, not_or] at hpath
    exact Ne.symm hpath.1
  have hbyte : (pre ++ slash :: (path ++ 0 :: post))[pre.length + 1]? = some c := by
    have hcell := hdrop
    rw [hcons, List.cons_append] at hcell
    exact hcons ▸ (getElem?_of_drop hcell).1
  obtain ⟨r, after, hcall, hchild, hbuf⟩ := vfsExtractChildAt_copy hpath hne
  rw [vfsFindBootstrapAt]
  simp only [hbyte, Option.bind_some, if_neg hc, hdrop, kstrdup_append hpath, hcall, hchild, List.drop_zero, hbuf,
    findMount_eq hzero.1 after s.mountpoints hmounts]
  cases s.mountpoints.find? fun m => m.name = path.takeWhile (· ≠ slash) with
  | none => rfl
  | some m =>
      have hstep := stepOver_eq (pre ++ [slash]) hzero.1 hzero.2 post after m
      rw [hsplit, ← hlength, ← hshape] at hstep
      exact hstep

/-- The walk of an absolute path starts at this dentry, with this rest of the path. -/
theorem vfsFindBootstrapAt_refines (pre : List UInt8) (hpath : 0 ∉ path) (post : List UInt8)
    (hmounts : ∀ m ∈ s.mountpoints, 0 ∉ m.name) :
    (vfsFindBootstrapAt s (pre ++ slash :: (path ++ 0 :: post)) pre.length).map
        (fun r => (r.1, r.2.map (stringAt (pre ++ slash :: (path ++ 0 :: post))))) =
      some (vfsFindBootstrap s path) := by
  by_cases hne : path = []
  · have hdrop : (pre ++ [slash]) ++ 0 :: post = pre ++ slash :: ([] ++ 0 :: post) := by simp
    have hbyte : (pre ++ slash :: ([] ++ 0 :: post))[pre.length + 1]? = some 0 := by
      rw [← hdrop, List.getElem?_append_right (by simp)]
      simp
    rw [hne, vfsFindBootstrapAt, vfsFindBootstrap, if_pos rfl]
    simp only [hbyte, Option.bind_some, if_true]
    rfl
  · have hfirst : (components path).headD [] = path.takeWhile (· ≠ slash) := by
      rw [← extract_eq_head, vfsExtractChild, if_neg hne, Option.getD_some]
    rw [vfsFindBootstrapAt_eq pre hpath hne post hmounts, vfsFindBootstrap_eq hne, hfirst, Option.map_some]
    have hsplit : path.takeWhile (· ≠ slash) ++ path.dropWhile (· ≠ slash) = path := List.takeWhile_append_dropWhile
    cases s.mountpoints.find? fun m => m.name = path.takeWhile (· ≠ slash) with
    | none =>
        have hstring := stringAt_append (pre ++ [slash]) hpath post
        rw [List.append_assoc, List.singleton_append, List.length_append, List.length_singleton] at hstring
        exact congrArg (fun str => some ((none : Option Nat), some str)) hstring
    | some m =>
        rw [vfsExtractChild]
        dsimp only
        cases hrest : path.dropWhile (· ≠ slash) with
        | nil => rfl
        | cons d rest =>
            rw [hrest] at hsplit
            have hzero : 0 ∉ rest := fun h => hpath (hsplit ▸ List.mem_append_right _ (List.mem_cons_of_mem d h))
            have hstring := stringAt_append (pre ++ slash :: (path.takeWhile (· ≠ slash) ++ [d])) hzero post
            have hshape : pre ++ slash :: (path.takeWhile (· ≠ slash) ++ [d]) ++ (rest ++ 0 :: post) =
                pre ++ slash :: (path ++ 0 :: post) := by
              nth_rewrite 2 [← hsplit]
              simp
            have hindex : (pre ++ slash :: (path.takeWhile (· ≠ slash) ++ [d])).length =
                pre.length + 1 + (path.takeWhile (· ≠ slash)).length + 1 := by
              simp only [List.length_append, List.length_cons, List.length_nil]
              omega
            rw [hshape, hindex] at hstring
            rw [if_neg (List.cons_ne_nil d rest), Option.map_some, hstring]

/-- Repeated calls of `vfs_extract_child` on a path return its components in order, one call more than there are
slashes, and write zeros over the slashes and nothing else.  `vfs_find_bootstrap` moves the path pointer behind the
first component and one slash, or to null, just when this is the name of a mount point, and else behind the leading
slash. -/
theorem path_splitting :
    (∀ path : Name, path ≠ [] → 0 ∉ path → ∃ children,
      ExtractRun (path ++ [0]) 0 children (cutSlashes path ++ [0]) ∧
        children.length = path.count slash + 1 ∧
        children.map (Option.map (stringAt (cutSlashes path ++ [0]))) = returnedChildren (components path)) ∧
      ∀ (s : Vfs Obj) (c rest : Name), (∀ m ∈ s.mountpoints, 0 ∉ m.name) → c ≠ [] → slash ∉ c → 0 ∉ c ++ rest →
        (rest = [] ∨ rest.head? = some slash) → ∃ dentry,
          vfsFindBootstrapAt s (slash :: (c ++ rest ++ [0])) 0 = some (dentry,
            if ∃ m ∈ s.mountpoints, m.name = c then if rest = [] then none else some (1 + c.length + 1)
            else some 1) := by
  constructor
  · intro path _ hpath
    have hrun := extractRun_components [] hpath []
    simpa only [List.nil_append, List.length_nil] using hrun
  · intro s c rest hmounts hc hslash hzero hrest
    have hclean : ∀ d ∈ c, decide (d ≠ slash) = true := fun d hd => decide_eq_true fun h => hslash (h ▸ hd)
    have hstop : rest.takeWhile (· ≠ slash) = [] ∧ rest.dropWhile (· ≠ slash) = rest := by
      rcases hrest with rfl | hhead
      · exact ⟨rfl, rfl⟩
      · cases rest with
        | nil => exact ⟨rfl, rfl⟩
        | cons d rest =>
            cases hhead
            exact ⟨rfl, rfl⟩
    have hne : c ++ rest ≠ [] := fun h => hc (List.append_eq_nil_iff.mp h).1
    have hcall := @vfsFindBootstrapAt_eq (c ++ rest) Obj s [] hzero hne [] hmounts
    rw [List.takeWhile_append_of_pos hclean, List.dropWhile_append_of_pos hclean, hstop.1, hstop.2, List.append_nil,
      List.nil_append, List.length_nil, Nat.zero_add] at hcall
    rw [hcall]
    cases hfind : s.mountpoints.find? fun m => m.name = c with
    | none =>
        have hnone : ¬ ∃ m ∈ s.mountpoints, m.name = c := by
          rintro ⟨m, hm, hname⟩
          exact List.find?_eq_none.mp hfind m hm (decide_eq_true hname)
        exact ⟨none, by rw [if_neg hnone]⟩
    | some m =>
        have hname := List.find?_some hfind
        have hsome : ∃ m ∈ s.mountpoints, m.name = c :=
          ⟨m, List.mem_of_find?_eq_some hfind, by simpa using hname⟩
        exact ⟨m.root, by rw [if_pos hsome]⟩

end Calls

/-- The path `d/` and the path `/d/` without a mount point of this name. -/
theorem path_splitting_single :
    (∃ children, ExtractRun ([100, 47] ++ [0]) 0 children (cutSlashes [100, 47] ++ [0]) ∧
        children.length = List.count slash [100, 47] + 1 ∧
        children.map (Option.map (stringAt (cutSlashes [100, 47] ++ [0]))) =
          returnedChildren (components [100, 47])) ∧
      ∃ dentry, vfsFindBootstrapAt noRoot (slash :: ([100] ++ [47] ++ [0])) 0 = some (dentry,
        if ∃ m ∈ noRoot.mountpoints, m.name = [100] then
          if ([47] : Name) = [] then none else some (1 + ([100] : Name).length + 1)
        else some 1) :=
  ⟨(@path_splitting Unit).1 [100, 47] (by decide) (by decide),
    path_splitting.2 noRoot [100] [47] (by decide) (by decide) (by decide) (by decide) (.inr rfl)⟩

end Fs
end Micael
