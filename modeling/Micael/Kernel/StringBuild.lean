import Micael.Foundation.Layout
import Micael.Kernel.Util
import Micael.Mm.HeapContents

/-!
# Building strings

`kstrcpy` and the two loops of `kstrncat` copy characters until the source ends.  None of them writes a
terminator.  `kstrncat` asks `kmalloc` for a byte more than there are characters, and this byte keeps what
stood there when the chunk was allocated; `kstrcpy` leaves what stood in the destination behind the copy.

A loop that finds no terminator among as many characters as there are addresses does not end.

Main results:

- Theorem {lit}`copyString_eq`: a copying loop moves the characters, unless the destination lies in the string.
- Theorem {lit}`copyString_hang`: there it overwrites the terminator before it gets to it.
- Theorem {lit}`copied_iff` and {lit}`joined_iff`: when the result is a string.
- Theorem {lit}`string_building_iff`: both functions.
-/

namespace Micael
namespace Kernel

open Foundation Mm

/-! ## The functions -/

/-- The loop of `kstrlen` from the index `len` on. -/
def kstrlenLoop (mem : Memory) (str : Nat) : Nat → Nat → Except Halt Nat
  | 0, _ => .error .hang
  | n + 1, len => if mem (str + len) = 0 then .ok len else kstrlenLoop mem str n (len + 1)

/-- `kstrlen`. -/
def kstrlen (mem : Memory) (str : Nat) : Except Halt Nat := kstrlenLoop mem str walkFuel 0

/-- The loops of `kstrncat`: where the write pointer stops, and memory. -/
def copyString : Nat → Memory → Nat → Nat → Except Halt (Nat × Memory)
  | 0, _, _, _ => .error .hang
  | n + 1, mem, rptr, ptr =>
      if mem ptr = 0 then .ok (rptr, mem)
      else copyString n (putByte mem rptr (mem ptr)) (rptr + 1) (ptr + 1)

/-- `kstrcpy`; the index of its loop moves both pointers. -/
def kstrcpy (mem : Memory) (dst src : Nat) : Except Halt (Nat × Memory) := do
  let (_, mem) ← copyString walkFuel mem dst src
  return (dst, mem)

/-- `kstrncat`. -/
def kstrncat (heap : Heap) (grant : ArenaGrant) (s1 s2 len : Nat) : Except Halt (Nat × Heap) := do
  let (ret, heap) ← kmalloc heap grant (u64 (len + 1)) ⟨false, false⟩
  let (rptr, mem) ← copyString walkFuel heap.mem ret s1
  let (_, mem) ← copyString walkFuel mem rptr s2
  return (ret, { heap with mem := mem })

/-- `kstrcat_s`. -/
def kstrcatS (heap : Heap) (grant : ArenaGrant) (s1 s2 : Nat) : Except Halt (Nat × Heap) := do
  let len1 ← kstrlen heap.mem s1
  let len2 ← kstrlen heap.mem s2
  kstrncat heap grant s1 s2 (u64 (len1 + len2))

/-! ## Strings in memory -/

/-- Read from the address up to the first terminator, memory holds the string. -/
structure StringAt (mem : Memory) (p : Nat) (s : List UInt8) : Prop where
  held : mem.HoldsAt p (s ++ [0])
  no_zero : 0 ∉ s

instance (mem : Memory) (p : Nat) (s : List UInt8) : Decidable (StringAt mem p s) :=
  decidable_of_iff (mem.HoldsAt p (s ++ [0]) ∧ 0 ∉ s) ⟨fun h => ⟨h.1, h.2⟩, fun h => ⟨h.held, h.no_zero⟩⟩

section Strings

variable {mem mem' : Memory} {p n : Nat} {s : List UInt8}

theorem StringAt.end_eq (h : StringAt mem p s) : mem (p + s.length) = 0 := by
  have hend := h.held.apply (i := s.length) (by simp)
  simpa using hend

theorem StringAt.char_ne (h : StringAt mem p s) {i : Nat} (hi : i < s.length) : mem (p + i) ≠ 0 := by
  have hchar := h.held.apply (i := i) (by simp; omega)
  rw [hchar, List.getElem_append_left hi]
  exact fun hzero => h.no_zero (hzero ▸ List.getElem_mem hi)

/-- A string is its characters and the terminator. -/
theorem stringAt_iff (hs : 0 ∉ s) : StringAt mem p s ↔ mem.HoldsAt p s ∧ mem (p + s.length) = 0 := by
  constructor
  · exact fun h => ⟨(Memory.holdsAt_append.mp h.held).1, h.end_eq⟩
  · rintro ⟨hheld, hend⟩
    refine ⟨Memory.holdsAt_append.mpr ⟨hheld, ?_⟩, hs⟩
    simpa [Memory.HoldsAt, Memory.bytes] using hend

/-- A string depends on its own bytes only. -/
theorem StringAt.congr (h : StringAt mem p s) (hsame : ∀ i ≤ s.length, mem' (p + i) = mem (p + i)) :
    StringAt mem' p s := by
  refine ⟨Eq.trans ?_ h.held, h.no_zero⟩
  apply Memory.bytes_eq_of_apply
  intro i hi
  exact hsame i (by simpa using Nat.le_of_lt_succ (by simpa using hi))

/-- `kstrlen` counts the characters. -/
theorem kstrlenLoop_eq {fuel len : Nat} (hchars : ∀ i < n, mem (p + len + i) ≠ 0) (hend : mem (p + len + n) = 0)
    (hfuel : n < fuel) : kstrlenLoop mem p fuel len = .ok (len + n) := by
  induction n generalizing fuel len with
  | zero =>
      obtain ⟨fuel, rfl⟩ : ∃ k, fuel = k + 1 := ⟨fuel - 1, by omega⟩
      rw [Nat.add_zero] at hend
      rw [kstrlenLoop, if_pos hend, Nat.add_zero]
  | succ n ih =>
      obtain ⟨fuel, rfl⟩ : ∃ k, fuel = k + 1 := ⟨fuel - 1, by omega⟩
      have hfirst : mem (p + len) ≠ 0 := hchars 0 (Nat.succ_pos n)
      have hrest : kstrlenLoop mem p fuel (len + 1) = .ok (len + 1 + n) := by
        apply ih
        · intro i hi
          have hchar := hchars (i + 1) (Nat.succ_lt_succ hi)
          rwa [show p + len + (i + 1) = p + (len + 1) + i by omega] at hchar
        · rwa [show p + len + (n + 1) = p + (len + 1) + n by omega] at hend
        · omega
      rw [kstrlenLoop, if_neg hfirst, hrest]
      congr 1
      omega

theorem StringAt.kstrlen_eq (h : StringAt mem p s) (hlen : s.length < 2 ^ 64) : kstrlen mem p = .ok s.length := by
  have hcount : kstrlenLoop mem p walkFuel 0 = .ok (0 + s.length) :=
    kstrlenLoop_eq (fun _ hi => h.char_ne hi) h.end_eq hlen
  rwa [Nat.zero_add] at hcount

end Strings

/-! ## The copying loop -/

section Copying

variable {mem : Memory} {dst src n : Nat} {s : List UInt8}

/-- A byte and the window behind it move like the whole window, if the byte is not written into the rest. -/
theorem kmemmove_putByte (hapart : dst ≤ src ∨ src + n < dst) :
    kmemmove (putByte mem dst (mem src)) (dst + 1) (src + 1) n = kmemmove mem dst src (n + 1) := by
  funext x
  rw [kmemmove_apply, kmemmove_apply]
  by_cases hrest : dst + 1 ≤ x ∧ x < dst + 1 + n
  · have hread : src + 1 + (x - (dst + 1)) = src + (x - dst) := by omega
    rw [if_pos hrest, if_pos (by omega), hread, putByte_apply, if_neg (by omega)]
  · rw [if_neg hrest, putByte_apply]
    by_cases hx : x = dst
    · rw [if_pos hx, if_pos (by omega), hx, Nat.sub_self, Nat.add_zero]
    · rw [if_neg hx, if_neg (by omega)]

/-- The loop moves the characters and stops behind them. -/
theorem copyString_eq {fuel : Nat} (hchars : ∀ i < n, mem (src + i) ≠ 0) (hend : mem (src + n) = 0)
    (hapart : dst ≤ src ∨ src + n < dst) (hfuel : n < fuel) :
    copyString fuel mem dst src = .ok (dst + n, kmemmove mem dst src n) := by
  induction n generalizing fuel mem dst src with
  | zero =>
      obtain ⟨fuel, rfl⟩ : ∃ k, fuel = k + 1 := ⟨fuel - 1, by omega⟩
      have hsame : kmemmove mem dst src 0 = mem := by
        funext x
        rw [kmemmove_apply, if_neg (by omega)]
      rw [Nat.add_zero] at hend
      rw [copyString, if_pos hend, hsame, Nat.add_zero]
  | succ n ih =>
      obtain ⟨fuel, rfl⟩ : ∃ k, fuel = k + 1 := ⟨fuel - 1, by omega⟩
      have hfirst : mem src ≠ 0 := hchars 0 (Nat.succ_pos n)
      -- the byte is not written into what is still to be read
      have hunread : ∀ i ≤ n, putByte mem dst (mem src) (src + 1 + i) = mem (src + (i + 1)) := by
        intro i hi
        rw [putByte_apply, if_neg (by omega), Nat.add_assoc, Nat.add_comm 1 i]
      have hrest : copyString fuel (putByte mem dst (mem src)) (dst + 1) (src + 1) =
          .ok (dst + 1 + n, kmemmove (putByte mem dst (mem src)) (dst + 1) (src + 1) n) := by
        apply ih
        · intro i hi
          rw [hunread i (Nat.le_of_lt hi)]
          exact hchars (i + 1) (Nat.succ_lt_succ hi)
        · rw [hunread n le_rfl]
          exact hend
        · omega
        · omega
      rw [copyString, if_neg hfirst, hrest, kmemmove_putByte (by omega), Nat.add_assoc, Nat.add_comm 1 n]

/-- A destination among the characters: the loop writes a character over every terminator before it gets there. -/
theorem copyString_hang {fuel : Nat} (hlt : src < dst) (hchars : ∀ x, src ≤ x → x < dst → mem x ≠ 0) :
    copyString fuel mem dst src = .error .hang := by
  induction fuel generalizing mem dst src with
  | zero => rfl
  | succ fuel ih =>
      have hfirst : mem src ≠ 0 := hchars src le_rfl hlt
      rw [copyString, if_neg hfirst]
      apply ih (Nat.succ_lt_succ hlt)
      intro x hle hx
      rw [putByte_apply]
      split
      · exact hfirst
      · exact hchars x (by omega) (by omega)

theorem StringAt.copyString_eq (h : StringAt mem src s) (hapart : dst ≤ src ∨ src + s.length < dst)
    (hlen : s.length < 2 ^ 64) :
    copyString walkFuel mem dst src = .ok (dst + s.length, kmemmove mem dst src s.length) :=
  Kernel.copyString_eq (fun _ hi => h.char_ne hi) h.end_eq hapart hlen

/-- A move changes nothing outside of its window. -/
theorem kmemmove_of_outside {x : Nat} (hx : x < dst ∨ dst + n ≤ x) : kmemmove mem dst src n x = mem x := by
  rw [kmemmove_apply, if_neg (by omega)]

/-- Moved characters lie at the destination. -/
theorem StringAt.holdsAt_kmemmove (h : StringAt mem src s) : (kmemmove mem dst src s.length).HoldsAt dst s := by
  refine Eq.trans ?_ ((stringAt_iff h.no_zero).mp h).1
  apply Memory.bytes_eq_of_apply
  intro i hi
  rw [kmemmove_apply, if_pos (by omega), Nat.add_sub_cancel_left]

end Copying

/-! ## `kstrcpy` -/

/-- `kstrcpy` returns the destination, and there is a copy of the string. -/
def Copied (mem : Memory) (dst src : Nat) (s : List UInt8) : Prop :=
  ∃ mem', kstrcpy mem dst src = .ok (dst, mem') ∧ StringAt mem' dst s

section Copy

variable {mem : Memory} {dst src : Nat} {s : List UInt8}

/-- `kstrcpy` leaves a copy just if the destination is not among the characters behind the first one or on the
terminator, and a terminator was there already where the copy ends. -/
theorem copied_iff (h : StringAt mem src s) (hlen : src + s.length < 2 ^ 64) :
    Copied mem dst src s ↔ (dst ≤ src ∨ src + s.length < dst) ∧ mem (dst + s.length) = 0 := by
  by_cases hapart : dst ≤ src ∨ src + s.length < dst
  · have hcopy : kstrcpy mem dst src = .ok (dst, kmemmove mem dst src s.length) := by
      rw [kstrcpy, h.copyString_eq hapart (by omega)]
      rfl
    have hend : kmemmove mem dst src s.length (dst + s.length) = mem (dst + s.length) :=
      kmemmove_of_outside (Or.inr le_rfl)
    constructor
    · rintro ⟨mem', hcall, hstr⟩
      rw [hcopy, Except.ok.injEq, Prod.mk.injEq] at hcall
      obtain ⟨-, rfl⟩ := hcall
      exact ⟨hapart, hend.symm.trans hstr.end_eq⟩
    · rintro ⟨-, hzero⟩
      exact ⟨_, hcopy, (stringAt_iff h.no_zero).mpr ⟨h.holdsAt_kmemmove, hend.trans hzero⟩⟩
  · apply iff_of_false
    · rintro ⟨mem', hcall, -⟩
      have hhang : copyString walkFuel mem dst src = .error .hang := by
        apply copyString_hang (by omega)
        intro x hle hx
        have hchar := h.char_ne (i := x - src) (by omega)
        rwa [Nat.add_sub_cancel' hle] at hchar
      rw [kstrcpy, hhang] at hcall
      cases hcall
    · exact fun hboth => hapart hboth.1

end Copy

/-! ## `kstrcat_s` -/

/-- A call of `kstrcat_s` that gets memory: the heap keeps its invariant, which it does along every run whose arena
records are clean, and the strings are in memory that the heap leaves to its users. -/
structure JoinCall (heap heap₁ : Heap) (grant : ArenaGrant) (s1 s2 p : Nat) (a b : List UInt8) : Prop where
  heapInv : HeapInv heap
  grown : findFree heap.mem heap.memArena (a.length + b.length + 1) = .ok (0, heap.mem) →
    grant.Fresh heap ∧ grant.Clean heap
  first : StringAt heap.mem s1 a
  second : StringAt heap.mem s2 b
  size_lt : a.length + b.length + 1 < 2 ^ 64
  malloc : kmalloc heap grant (a.length + b.length + 1) ⟨false, false⟩ = .ok (p, heap₁)
  firstUser : ∀ i ≤ a.length, UserByte heap heap₁ (s1 + i)
  secondUser : ∀ i ≤ b.length, UserByte heap heap₁ (s2 + i)

/-- `kstrcat_s` returns a buffer that reads as the string. -/
def Joined (heap : Heap) (grant : ArenaGrant) (s1 s2 : Nat) (s : List UInt8) : Prop :=
  ∃ ret heap', kstrcatS heap grant s1 s2 = .ok (ret, heap') ∧ StringAt heap'.mem ret s

section Join

variable {heap heap₁ : Heap} {grant : ArenaGrant} {s1 s2 p q : Nat} {a b s : List UInt8}

/-- A string of a user is still there after the allocation, and none of it is in the new payload. -/
theorem JoinCall.kept (h : JoinCall heap heap₁ grant s1 s2 p a b) (hstr : StringAt heap.mem q s)
    (huser : ∀ i ≤ s.length, UserByte heap heap₁ (q + i)) :
    StringAt heap₁.mem q s ∧ ∀ i ≤ s.length, q + i < p ∨ p + (a.length + b.length + 1) ≤ q + i := by
  have hkeeps := fun i (hi : i ≤ s.length) => kmalloc_keeps h.heapInv h.grown rfl h.malloc (huser i hi)
  constructor
  · exact hstr.congr fun i hi => (hkeeps i hi).1
  · intro i hi
    have hout := (hkeeps i hi).2
    rw [Payload.bytes, Set.mem_Ico] at hout
    simp only at hout
    omega

/-- The first move leaves the second string. -/
theorem JoinCall.second_moved (h : JoinCall heap heap₁ grant s1 s2 p a b) :
    StringAt (kmemmove heap₁.mem p s1 a.length) s2 b := by
  obtain ⟨hsecond, hsecondOut⟩ := h.kept h.second h.secondUser
  apply hsecond.congr
  intro i hi
  have hout := hsecondOut i hi
  exact kmemmove_of_outside (by omega)

/-- What `kstrcat_s` does when it gets memory. -/
theorem JoinCall.kstrcatS_eq (h : JoinCall heap heap₁ grant s1 s2 p a b) :
    kstrcatS heap grant s1 s2 = .ok (p, { heap₁ with
      mem := kmemmove (kmemmove heap₁.mem p s1 a.length) (p + a.length) s2 b.length }) := by
  have hsize := h.size_lt
  obtain ⟨hfirst, hfirstOut⟩ := h.kept h.first h.firstUser
  obtain ⟨-, hsecondOut⟩ := h.kept h.second h.secondUser
  -- the buffer does not begin in a string, nor does its second part
  have hapart1 : p ≤ s1 ∨ s1 + a.length < p := by
    by_contra hin
    have hout := hfirstOut (p - s1) (by omega)
    omega
  have hapart2 : p + a.length ≤ s2 ∨ s2 + b.length < p + a.length := by
    by_contra hin
    have hout := hsecondOut (p + a.length - s2) (by omega)
    omega
  have hlen : u64 (a.length + b.length) = a.length + b.length := u64_eq_of_lt (by omega)
  have hcopy1 := hfirst.copyString_eq hapart1 (by omega)
  have hcopy2 := h.second_moved.copyString_eq hapart2 (by omega)
  rw [kstrcatS, h.first.kstrlen_eq (by omega), Halt.ok_bind, h.second.kstrlen_eq (by omega), Halt.ok_bind,
    kstrncat, hlen, u64_eq_of_lt hsize, h.malloc, Halt.ok_bind]
  dsimp only
  rw [hcopy1, Halt.ok_bind]
  dsimp only
  rw [hcopy2, Halt.ok_bind]
  rfl

/-- `kstrcat_s` returns both strings, one behind the other, just if a terminator stood behind them in the memory that
`kmalloc` hands out already before the call. -/
theorem joined_iff (h : JoinCall heap heap₁ grant s1 s2 p a b) :
    Joined heap grant s1 s2 (a ++ b) ↔ heap.mem (p + (a.length + b.length)) = 0 := by
  obtain ⟨hfirst, -⟩ := h.kept h.first h.firstUser
  obtain ⟨mem, hmem⟩ : ∃ mem,
      mem = kmemmove (kmemmove heap₁.mem p s1 a.length) (p + a.length) s2 b.length := ⟨_, rfl⟩
  have hcall := h.kstrcatS_eq
  rw [← hmem] at hcall
  have hchars : mem.HoldsAt p (a ++ b) := by
    have hmoved : (kmemmove heap₁.mem p s1 a.length).HoldsAt p a := hfirst.holdsAt_kmemmove
    rw [Memory.holdsAt_append, hmem]
    refine ⟨Eq.trans ?_ hmoved, h.second_moved.holdsAt_kmemmove⟩
    apply Memory.bytes_eq_of_apply
    intro i hi
    exact kmemmove_of_outside (by omega)
  have hend : mem (p + (a ++ b).length) = heap.mem (p + (a.length + b.length)) := by
    rw [hmem, List.length_append, kmemmove_of_outside (by omega), kmemmove_of_outside (by omega)]
    apply kmalloc_payload h.heapInv h.grown rfl h.malloc
    exact ⟨Nat.le_add_right _ _, Nat.add_lt_add_left (Nat.lt_succ_self _) p⟩
  have hclean : 0 ∉ a ++ b := by
    rw [List.mem_append]
    exact not_or.mpr ⟨h.first.no_zero, h.second.no_zero⟩
  constructor
  · rintro ⟨ret, heap', hret, hstr⟩
    rw [hcall, Except.ok.injEq, Prod.mk.injEq] at hret
    obtain ⟨rfl, rfl⟩ := hret
    exact hend.symm.trans hstr.end_eq
  · intro hzero
    exact ⟨p, _, hcall, (stringAt_iff hclean).mpr ⟨hchars, hend.trans hzero⟩⟩

end Join

/-- Both functions build strings just where old memory happens to end them: in every state of the heap, for all
strings. -/
theorem string_building_iff (heap : Heap) :
    (∀ {heap₁ : Heap} {grant : ArenaGrant} {s1 s2 p : Nat} {a b : List UInt8},
      JoinCall heap heap₁ grant s1 s2 p a b →
        (Joined heap grant s1 s2 (a ++ b) ↔ heap.mem (p + (a.length + b.length)) = 0)) ∧
    ∀ {dst src : Nat} {s : List UInt8}, StringAt heap.mem src s → src + s.length < 2 ^ 64 →
      (Copied heap.mem dst src s ↔ (dst ≤ src ∨ src + s.length < dst) ∧ heap.mem (dst + s.length) = 0) := by
  constructor
  · intro heap₁ grant s1 s2 p a b hjoin
    exact joined_iff hjoin
  · intro dst src s hstr hlen
    exact copied_iff hstr hlen

/-! ## A chunk that was in use before -/

/-- The strings `ab` and `cd`, at `0x500` and `0x600`. -/
def twoStrings : Memory := (zeroMemory.store 0x500 2 0x6261).store 0x600 2 0x6463

/-- Seven bytes are allocated, filled by their user and released; the memory for the joined strings is their chunk. -/
def recycledRun (old : UInt8) : Except Halt (Heap × Heap × Heap × Nat × Heap) := do
  let heap₀ ← mmuHeapInit twoStrings 0x1000 0x1100 0x10000 0x20000 false
  let (p, heap₁) ← kmalloc heap₀ smallGrant 7 ⟨false, false⟩
  let heap := kfree { heap₁ with mem := heap₁.mem.fill p 7 old } p
  let (q, heap₂) ← kmalloc heap smallGrant 5 ⟨false, false⟩
  return (heap₀, heap₁, heap, q, heap₂)

theorem twoStrings_boot : HeapBoot twoStrings 0x1000 0x1100 0x10000 0x20000 :=
  { smallHeap_boot with
    memNext := by decide
    highNext := by decide }

theorem outside_smallArenas {x : Nat} (hx : x < 0x1000) :
    ∀ a ∈ smallArenas, x ∉ a.recordBytes ∧ x ∉ a.bytes := by
  have habove : ∀ a ∈ smallArenas, 0x1000 ≤ a.record ∧ 0x1000 ≤ a.base := by decide
  intro a ha
  have hbounds := habove a ha
  rw [ArenaBlock.recordBytes, ArenaBlock.bytes, Set.mem_Ico, Set.mem_Ico]
  omega

/-- What is checked of the run: its arenas and the record of the grant, the strings, and the byte behind them in the
memory for the joined strings. -/
def recycledFacts (old : UInt8) :
    Except Halt ((List ArenaBlock × List ArenaBlock × List ArenaBlock) × (Nat × Nat) × Bool × Bool × UInt8) :=
  (recycledRun old).map fun (heap₀, heap₁, heap, q, heap₂) =>
    ((heap₀.arenas, heap₁.arenas, heap₂.arenas),
      ((readArena heap₀.mem smallGrant.record).next, (readArena heap.mem smallGrant.record).next),
      decide (StringAt heap.mem 0x500 [0x61, 0x62]), decide (StringAt heap.mem 0x600 [0x63, 0x64]), heap.mem (q + 4))

/-- The run is one of the heap, and `kstrcat_s` gets memory after it. -/
theorem recycledRun_joinCall {old last : UInt8} (hfacts : recycledFacts old =
      .ok ((smallArenas, smallArenas, smallArenas), (0, 0), true, true, last)) :
    ∃ heap₀ heap heap₂ p q, mmuHeapInit twoStrings 0x1000 0x1100 0x10000 0x20000 false = .ok heap₀ ∧
      Run (fun s op t => HeapStep s op t ∧ CleanCall s op) heap₀
        [.kmalloc 7 ⟨false, false⟩ smallGrant, .write, .kfree ⟨p, 7⟩] heap ∧
      JoinCall heap heap₂ smallGrant 0x500 0x600 q [0x61, 0x62] [0x63, 0x64] ∧ heap.mem (q + 4) = last := by
  obtain ⟨⟨heap₀, heap₁, heap, q, heap₂⟩, hall, hvalues⟩ := Halt.map_eq_ok.mp hfacts
  simp only [Prod.mk.injEq, decide_eq_true_eq] at hvalues
  obtain ⟨⟨harenas₀, harenas₁, harenas₂⟩, ⟨hclean₀, hclean⟩, hfirst, hsecond, hend⟩ := hvalues
  obtain ⟨heap₀', hinit, hrest⟩ := Halt.bind_eq_ok.mp hall
  obtain ⟨⟨p, heap₁'⟩, hmalloc, hrest⟩ := Halt.bind_eq_ok.mp hrest
  obtain ⟨⟨q', heap₂'⟩, hjoin, hrest⟩ := Halt.bind_eq_ok.mp hrest
  simp only [Halt.pure_eq_ok, Except.ok.injEq, Prod.mk.injEq] at hrest
  obtain ⟨rfl, rfl, rfl, rfl, rfl⟩ := hrest
  have hinv₀ := mmuHeapInit_inv twoStrings_boot hinit
  have hlive : ⟨p, 7⟩ ∈ heap₁'.live := kmalloc_live hinv₀ hmalloc
  have hwrite : HeapStep heap₁' .write { heap₁' with mem := heap₁'.mem.fill p 7 old } := by
    refine .write fun x hx _ => Memory.fill_of_outside ?_
    have hout := hx ⟨p, 7⟩ hlive
    rw [Payload.bytes, Set.mem_Ico] at hout
    simp only at hout
    omega
  have hrun : Run (fun s op t => HeapStep s op t ∧ CleanCall s op) heap₀'
      ([] ++ [.kmalloc 7 ⟨false, false⟩ smallGrant] ++ [.write] ++ [.kfree ⟨p, 7⟩])
      (kfree { heap₁' with mem := heap₁'.mem.fill p 7 old } p) :=
    ((Run.nil.snoc ⟨.kmalloc (fun _ => smallGrant_fresh harenas₀) hmalloc, fun _ => hclean₀⟩).snoc
      ⟨hwrite, trivial⟩).snoc ⟨.kfree hlive, trivial⟩
  have hinv := hrun.invariant HeapInv (fun _ _ _ h hstep => heapStep_inv h hstep.1 hstep.2) hinv₀
  have huser : ∀ x < 0x1000, UserByte (kfree { heap₁' with mem := heap₁'.mem.fill p 7 old } p) heap₂' x := by
    intro x hx
    refine Or.inr ?_
    rw [harenas₂]
    exact outside_smallArenas hx
  refine ⟨heap₀', _, heap₂', p, q', hinit, hrun, ?_, hend⟩
  exact
    { heapInv := hinv
      grown := fun _ => ⟨smallGrant_fresh harenas₁, hclean⟩
      first := hfirst
      second := hsecond
      size_lt := by decide
      malloc := hjoin
      firstUser := fun i hi => huser _ (by simp at hi; omega)
      secondUser := fun i hi => huser _ (by simp at hi; omega) }

theorem cleared_chunk_joined :
    (∃ heap heap₂ q, JoinCall heap heap₂ smallGrant 0x500 0x600 q [0x61, 0x62] [0x63, 0x64] ∧
      Joined heap smallGrant 0x500 0x600 ([0x61, 0x62] ++ [0x63, 0x64])) ∧
    Copied twoStrings 0x700 0x500 [0x61, 0x62] := by
  have hfacts : recycledFacts 0 = .ok ((smallArenas, smallArenas, smallArenas), (0, 0), true, true, 0) := by
    decide +kernel
  obtain ⟨heap₀, heap, heap₂, p, q, -, -, hjoin, hend⟩ := recycledRun_joinCall hfacts
  constructor
  · exact ⟨heap, heap₂, q, hjoin, ((string_building_iff heap).1 hjoin).mpr hend⟩
  · have hstr : StringAt twoStrings 0x500 [0x61, 0x62] := by decide
    have hend : twoStrings 0x702 = 0 := by decide
    exact ((string_building_iff { heap with mem := twoStrings }).2 hstr (by decide)).mpr ⟨by decide, hend⟩

/-- The user of the chunk left the byte `x` everywhere: the joined strings go on behind `abcd`.  A copy goes on in the
same way. -/
theorem recycled_chunk_runs_on :
    (∃ heap₀ heap heap₂ p q, mmuHeapInit twoStrings 0x1000 0x1100 0x10000 0x20000 false = .ok heap₀ ∧
      Run (fun s op t => HeapStep s op t ∧ CleanCall s op) heap₀
        [.kmalloc 7 ⟨false, false⟩ smallGrant, .write, .kfree ⟨p, 7⟩] heap ∧
      JoinCall heap heap₂ smallGrant 0x500 0x600 q [0x61, 0x62] [0x63, 0x64] ∧
      ¬ Joined heap smallGrant 0x500 0x600 ([0x61, 0x62] ++ [0x63, 0x64])) ∧
    ∃ mem, StringAt mem 0x500 [0x61, 0x62] ∧ ¬ Copied mem 0x700 0x500 [0x61, 0x62] := by
  have hfacts : recycledFacts 0x78 = .ok ((smallArenas, smallArenas, smallArenas), (0, 0), true, true, 0x78) := by
    decide +kernel
  constructor
  · obtain ⟨heap₀, heap, heap₂, p, q, hinit, hrun, hjoin, hend⟩ := recycledRun_joinCall hfacts
    refine ⟨heap₀, heap, heap₂, p, q, hinit, hrun, hjoin, fun hjoined => ?_⟩
    have hzero := (joined_iff hjoin).mp hjoined
    exact absurd (hend.symm.trans hzero) (by decide)
  · have hstr : StringAt (twoStrings.fill 0x700 3 0x78) 0x500 [0x61, 0x62] := by decide
    refine ⟨_, hstr, fun hcopied => ?_⟩
    exact absurd ((copied_iff hstr (by decide)).mp hcopied).2 (by decide)

end Kernel
end Micael
