import Micael.Foundation.Loop

/-!
# Interrupt handlers

Every vector has an array of 16 handlers and a counter.  `irq_install_handler` writes behind the entries that the
counter counts, `irq_uninstall_handler` writes a null pointer over a handler and leaves the counter.
`interrupt_handler` calls the entries in order until one of them has handled the interrupt.

A failed assertion stops the model.

Main results:

- Theorem {lit}`irqRun_log`: what the entries of a vector are after any calls.
- Theorem {lit}`callHandlers_eq_iff`: when an interrupt calls the installed handlers.
- Theorem {lit}`irq_vector_right_iff`: when a vector is as it should be, after any calls.
-/

namespace Micael
namespace Kernel

open Foundation

/-! ## The table -/

section Table

variable {H C : Type} [DecidableEq H]

/-- An entry of `handlers[num].handlers`: null pointers are `none`. -/
structure IrqSlot (H C : Type) where
  handler : Option H
  ctx : Option C

/-- `struct irq_handler`. -/
structure IrqHandler (H C : Type) where
  installed : Nat
  handlers : Nat → IrqSlot H C

/-- `handlers`. -/
abbrev IrqTable (H C : Type) : Type := Nat → IrqHandler H C

/-- `MAX_INT`. -/
def maxInt : Nat := 256

/-- `MAX_HANDLERS`. -/
def maxHandlers : Nat := 16

/-- `VECNUM_SYSCALL`. -/
def vecnumSyscall : Nat := 0x80

/-- `VECNUM_PAGE_FAULT`. -/
def vecnumPageFault : Nat := 0x0e

/-- `VECNUM_GPF`. -/
def vecnumGpf : Nat := 0x0d

/-- `IRQ_HANDLED`. -/
def irqHandled : UInt32 := 0

/-- A vector after `kmemset`. -/
def IrqHandler.zero : IrqHandler H C := ⟨0, fun _ => ⟨none, none⟩⟩

/-- A vector with the handler that `irq_init` puts there. -/
def IrqHandler.boot (handler : H) : IrqHandler H C :=
  { installed := 1, handlers := Function.update IrqHandler.zero.handlers 0 ⟨some handler, none⟩ }

/-- `irq_init`: the handlers of other files are parameters. -/
def irqInit (syscallHandler mmuPfHandler gpfHandler : H) : IrqTable H C :=
  let t : IrqTable H C := fun _ => IrqHandler.zero
  let t := Function.update t vecnumSyscall (IrqHandler.boot syscallHandler)
  let t := Function.update t vecnumPageFault (IrqHandler.boot mmuPfHandler)
  Function.update t vecnumGpf (IrqHandler.boot gpfHandler)

/-- `irq_install_handler`. -/
def irqInstallHandler (t : IrqTable H C) (num : Int) (handler : Option H) (ctx : Option C) :
    Option (IrqTable H C) :=
  if (0 ≤ num ∧ num < maxInt) ∧ handler ≠ none then
    let v := t num.toNat
    if v.installed < maxHandlers then
      some (Function.update t num.toNat
        { installed := v.installed + 1, handlers := Function.update v.handlers v.installed ⟨handler, ctx⟩ })
    else none
  else none

/-- One turn of the loop in `irq_uninstall_handler`. -/
def uninstallTurn (handler : H) (slots : Nat → IrqSlot H C) (i : Nat) : Nat → IrqSlot H C :=
  if (slots i).handler = some handler then Function.update slots i { slots i with handler := none } else slots

/-- `irq_uninstall_handler`. -/
def irqUninstallHandler (t : IrqTable H C) (num : Int) (handler : H) : Option (IrqTable H C) :=
  if 0 ≤ num ∧ num < maxInt then
    let v := t num.toNat
    some (Function.update t num.toNat
      { v with handlers := (List.range v.installed).foldl (uninstallTurn handler) v.handlers })
  else none

/-- What `interrupt_handler` does: the handlers that are called, each with its argument, and whether a null
pointer is called then. -/
structure IrqOutcome (H C : Type) where
  calls : List (H × C)
  nullCall : Bool
  panic : Bool

/-- The loop of `interrupt_handler` from an index on, with a number of entries to go. -/
def callHandlers (slots : Nat → IrqSlot H C) (ret : H → C → UInt32) (cpuState : C) :
    Nat → Nat → IrqOutcome H C
  | _, 0 => ⟨[], false, false⟩
  | i, n + 1 =>
      match (slots i).handler with
      | none => ⟨[], true, false⟩
      | some handler =>
          let arg := (slots i).ctx.getD cpuState
          if ret handler arg = irqHandled then ⟨[(handler, arg)], false, false⟩
          else
            let r := callHandlers slots ret cpuState (i + 1) n
            { r with calls := (handler, arg) :: r.calls }

/-- `interrupt_handler`: `ret` is what a handler returns.  A vector without entries panics. -/
def interruptHandler (t : IrqTable H C) (isrNum : Nat) (ret : H → C → UInt32) (cpuState : C) :
    IrqOutcome H C :=
  if isrNum > maxInt then ⟨[], false, true⟩
  else if (t isrNum).installed ≠ 0 then
    callHandlers (t isrNum).handlers ret cpuState 0 (t isrNum).installed
  else ⟨[], false, true⟩

/-! ## Histories -/

/-- A call for a vector. -/
inductive IrqCall (H C : Type) where
  | install (handler : H) (ctx : Option C)
  | uninstall (handler : H)

/-- A call as the kernel makes it. -/
def IrqCall.run (num : Nat) (t : IrqTable H C) : IrqCall H C → Option (IrqTable H C)
  | install handler ctx => irqInstallHandler t num (some handler) ctx
  | uninstall handler => irqUninstallHandler t num handler

/-- All calls for a vector, one after another. -/
def irqRun (num : Nat) : IrqTable H C → List (IrqCall H C) → Option (IrqTable H C)
  | t, [] => some t
  | t, call :: calls => (call.run num t).bind fun t => irqRun num t calls

/-- The handler that `irq_init` installs on a vector. -/
def bootHandlers (syscallHandler mmuPfHandler gpfHandler : H) (num : Nat) : List (H × Option C) :=
  if num = vecnumSyscall then [(syscallHandler, none)]
  else if num = vecnumPageFault then [(mmuPfHandler, none)]
  else if num = vecnumGpf then [(gpfHandler, none)]
  else []

/-- The installed handlers, in the order of their installation. -/
def IrqCall.apply (current : List (H × Option C)) : IrqCall H C → List (H × Option C)
  | install handler ctx => current ++ [(handler, ctx)]
  | uninstall handler => current.filter fun e => e.1 ≠ handler

/-- The installed handlers after all calls. -/
def installedAfter (boot : List (H × Option C)) (calls : List (IrqCall H C)) : List (H × Option C) :=
  calls.foldl IrqCall.apply boot

/-- What an interrupt should call: the installed handlers up to the first one that has handled it. -/
def expectedCalls (ret : H → C → UInt32) (cpuState : C) : List (H × Option C) → List (H × C)
  | [] => []
  | (handler, ctx) :: current =>
      let arg := ctx.getD cpuState
      (handler, arg) :: if ret handler arg = irqHandled then [] else expectedCalls ret cpuState current

/-- Handlers that are installed are distinct, and there are always fewer than 16 of them. -/
def ValidCalls (boot : List (H × Option C)) : List (IrqCall H C) → Prop
  | [] => boot.length < maxHandlers
  | call :: calls =>
      boot.length < maxHandlers ∧
        (∀ handler ctx, call = .install handler ctx → ∀ e ∈ boot, e.1 ≠ handler) ∧
        ValidCalls (call.apply boot) calls

/-- The calls go through, then an interrupt calls just the installed handlers, up to the first one that has
handled it, and one more handler can be installed. -/
def VectorRight (t : IrqTable H C) (boot : List (H × Option C)) (num : Nat) (calls : List (IrqCall H C))
    (ret : H → C → UInt32) (cpuState : C) : Prop :=
  ∃ t', irqRun num t calls = some t' ∧
    (interruptHandler t' num ret cpuState).calls = expectedCalls ret cpuState (installedAfter boot calls) ∧
    (interruptHandler t' num ret cpuState).nullCall = false ∧
    ∀ handler ctx, (irqInstallHandler t' num (some handler) ctx).isSome

/-! ## The condition -/

/-- A handler that was installed at some time, and whether it still is. -/
structure IrqEntry (H C : Type) where
  handler : H
  ctx : Option C
  alive : Bool

/-- All handlers that were installed at any time, in the order of their installation. -/
def IrqCall.record (entries : List (IrqEntry H C)) : IrqCall H C → List (IrqEntry H C)
  | install handler ctx => entries ++ [⟨handler, ctx, true⟩]
  | uninstall handler =>
      entries.map fun e => if e.handler = handler then { e with alive := false } else e

/-- All handlers that were installed at any time in a history. -/
def everInstalled (boot : List (H × Option C)) (calls : List (IrqCall H C)) : List (IrqEntry H C) :=
  calls.foldl IrqCall.record (boot.map fun e => ⟨e.1, e.2, true⟩)

/-- A handler that is still installed and handles the interrupt stands before every handler that was
uninstalled. -/
def Shielded (ret : H → C → UInt32) (cpuState : C) (entries : List (IrqEntry H C)) : Prop :=
  ∀ front e rest, entries = front ++ e :: rest → e.alive = false →
    ∃ d ∈ front, d.alive = true ∧ ret d.handler (d.ctx.getD cpuState) = irqHandled

/-! ## Entries -/

variable {t t' : IrqTable H C} {v : IrqHandler H C} {entries : List (IrqEntry H C)} {num : Nat}
  {ret : H → C → UInt32} {cpuState : C}

/-- The entry of the table for a handler that was installed at some time. -/
def IrqEntry.slot (e : IrqEntry H C) : IrqSlot H C := ⟨if e.alive then some e.handler else none, e.ctx⟩

/-- The entries that a vector counts. -/
structure IrqHandler.Log (v : IrqHandler H C) (entries : List (IrqEntry H C)) : Prop where
  installed : v.installed = entries.length
  slot : ∀ i e, entries[i]? = some e → v.handlers i = e.slot

/-- The entries of handlers that are still installed. -/
def currentOf (entries : List (IrqEntry H C)) : List (H × Option C) :=
  (entries.filter fun e => e.alive).map fun e => (e.handler, e.ctx)

theorem currentOf_record (entries : List (IrqEntry H C)) (call : IrqCall H C) :
    currentOf (call.record entries) = call.apply (currentOf entries) := by
  cases call with
  | install handler ctx => simp [IrqCall.record, IrqCall.apply, currentOf]
  | uninstall handler =>
      rw [IrqCall.record, IrqCall.apply]
      induction entries with
      | nil => rfl
      | cons e entries ih =>
          rw [currentOf] at ih ⊢
          rw [currentOf] at ih ⊢
          rw [List.map_cons]
          by_cases hhandler : e.handler = handler
          · cases halive : e.alive <;> simp [hhandler, halive, ih]
          · cases halive : e.alive <;> simp [hhandler, halive, ih]

/-- The installed handlers are the entries that are alive. -/
theorem installedAfter_eq (boot : List (H × Option C)) (calls : List (IrqCall H C)) :
    installedAfter boot calls = currentOf (everInstalled boot calls) := by
  have hboot : currentOf (boot.map fun e => (⟨e.1, e.2, true⟩ : IrqEntry H C)) = boot := by
    rw [currentOf, List.filter_map, List.map_map]
    simp [Function.comp_def]
  have hfold : ∀ entries, (calls.foldl IrqCall.apply (currentOf entries)) =
      currentOf (calls.foldl IrqCall.record entries) := by
    induction calls with
    | nil => exact fun entries => rfl
    | cons call calls ih =>
        intro entries
        rw [List.foldl_cons, List.foldl_cons, ← currentOf_record, ih]
  rw [installedAfter, everInstalled, ← hfold, hboot]

theorem record_length_le (entries : List (IrqEntry H C)) (call : IrqCall H C) :
    entries.length ≤ (call.record entries).length := by
  cases call <;> simp [IrqCall.record]

theorem foldl_record_length_le (calls : List (IrqCall H C)) (entries : List (IrqEntry H C)) :
    entries.length ≤ (calls.foldl IrqCall.record entries).length := by
  induction calls generalizing entries with
  | nil => exact Nat.le_refl _
  | cons call calls ih => exact (record_length_le entries call).trans (ih _)

/-! ## Calls -/

/-- The loop of `irq_uninstall_handler`. -/
theorem uninstall_loop (handler : H) (slots : Nat → IrqSlot H C) (n i : Nat) :
    (List.range n).foldl (uninstallTurn handler) slots i =
      if i < n ∧ (slots i).handler = some handler then { slots i with handler := none } else slots i := by
  refine foldl_range_invariant (fun n (slots' : Nat → IrqSlot H C) => ∀ i, slots' i =
    if i < n ∧ (slots i).handler = some handler then { slots i with handler := none } else slots i)
    (fun i => by simp) ?_ i
  intro k _ slots' hslots i
  have hk := hslots k
  rw [if_neg (by omega)] at hk
  rw [uninstallTurn, hk]
  by_cases hi : i = k
  · subst hi
    split
    case isTrue hmatch => rw [Function.update_self, if_pos ⟨Nat.lt_succ_self i, hmatch⟩]
    case isFalse hmatch => rw [hk, if_neg fun h => hmatch h.2]
  · have hlt : i < k + 1 ↔ i < k := by omega
    have hself := hslots i
    simp only [hlt]
    rw [← hself]
    split
    · rw [Function.update_of_ne hi]
    · rfl

omit [DecidableEq H] in
/-- An installation. -/
theorem IrqHandler.Log.install (h : v.Log entries) (handler : H) (ctx : Option C) :
    IrqHandler.Log ⟨v.installed + 1, Function.update v.handlers v.installed ⟨some handler, ctx⟩⟩
      (entries ++ [⟨handler, ctx, true⟩]) := by
  have hinstalled := h.installed
  constructor
  case installed => rw [List.length_append, List.length_singleton, h.installed]
  case slot =>
      intro i e he
      dsimp only
      rcases Nat.lt_trichotomy i entries.length with hlt | heq | hgt
      · rw [List.getElem?_append_left hlt] at he
        rw [Function.update_of_ne (by omega : i ≠ v.installed)]
        exact h.slot i e he
      · rw [heq, List.getElem?_concat_length] at he
        cases he
        rw [heq, ← h.installed, Function.update_self]
        rfl
      · rw [List.getElem?_eq_none (by rw [List.length_append, List.length_singleton]; omega)] at he
        cases he

/-- An uninstallation. -/
theorem IrqHandler.Log.uninstall (h : v.Log entries) (handler : H) :
    IrqHandler.Log { v with handlers := (List.range v.installed).foldl (uninstallTurn handler) v.handlers }
      (entries.map fun e => if e.handler = handler then { e with alive := false } else e) := by
  constructor
  case installed => rw [List.length_map, h.installed]
  case slot =>
      intro i e he
      rw [List.getElem?_map, Option.map_eq_some_iff] at he
      obtain ⟨d, hd, rfl⟩ := he
      have hlt : i < v.installed := h.installed ▸ (List.getElem?_eq_some_iff.mp hd).1
      dsimp only
      rw [uninstall_loop, h.slot i d hd]
      by_cases hhandler : d.handler = handler
      · cases halive : d.alive <;> simp [IrqEntry.slot, hhandler, halive, hlt]
      · cases halive : d.alive <;> simp [IrqEntry.slot, hhandler, halive]

/-- One call that goes through. -/
theorem IrqCall.run_log (hnum : num < maxInt) (h : (t num).Log entries) {call : IrqCall H C}
    (hrun : call.run num t = some t') : (t' num).Log (call.record entries) := by
  have hrange : (0 : Int) ≤ num ∧ (num : Int) < maxInt := ⟨by omega, by omega⟩
  cases call with
  | install handler ctx =>
      rw [IrqCall.run, irqInstallHandler, if_pos ⟨hrange, by simp⟩] at hrun
      simp only [Int.toNat_natCast] at hrun
      split at hrun
      case isTrue =>
          cases hrun
          rw [Function.update_self]
          exact h.install handler ctx
      case isFalse => cases hrun
  | uninstall handler =>
      rw [IrqCall.run, irqUninstallHandler, if_pos hrange] at hrun
      cases hrun
      simp only [Int.toNat_natCast, Function.update_self]
      exact h.uninstall handler

/-- A call goes through when there is room for its entry. -/
theorem IrqCall.run_isSome (hnum : num < maxInt) (h : (t num).Log entries) {call : IrqCall H C}
    (hroom : (call.record entries).length ≤ maxHandlers) : ∃ t', call.run num t = some t' := by
  have hrange : (0 : Int) ≤ num ∧ (num : Int) < maxInt := ⟨by omega, by omega⟩
  cases call with
  | install handler ctx =>
      rw [IrqCall.record, List.length_append, List.length_singleton] at hroom
      have hlt : (t num).installed < maxHandlers := by
        rw [h.installed]
        omega
      rw [IrqCall.run, irqInstallHandler, if_pos ⟨hrange, by simp⟩]
      simp only [Int.toNat_natCast, if_pos hlt]
      exact ⟨_, rfl⟩
  | uninstall handler =>
      rw [IrqCall.run, irqUninstallHandler, if_pos hrange]
      exact ⟨_, rfl⟩

/-- What the entries of a vector are after calls that go through. -/
theorem irqRun_log (hnum : num < maxInt) {calls : List (IrqCall H C)} (h : (t num).Log entries)
    (hrun : irqRun num t calls = some t') : (t' num).Log (calls.foldl IrqCall.record entries) := by
  induction calls generalizing t entries with
  | nil =>
      cases hrun
      exact h
  | cons call calls ih =>
      obtain ⟨u, hu, hrest⟩ := Option.bind_eq_some_iff.mp hrun
      exact ih (IrqCall.run_log hnum h hu) hrest

/-- Calls go through when there is room for all entries. -/
theorem irqRun_isSome (hnum : num < maxInt) {calls : List (IrqCall H C)} (h : (t num).Log entries)
    (hroom : (calls.foldl IrqCall.record entries).length ≤ maxHandlers) : ∃ t', irqRun num t calls = some t' := by
  induction calls generalizing t entries with
  | nil => exact ⟨t, rfl⟩
  | cons call calls ih =>
      have hfirst := (foldl_record_length_le calls (call.record entries)).trans hroom
      obtain ⟨u, hu⟩ := IrqCall.run_isSome hnum h hfirst
      obtain ⟨t', ht'⟩ := ih (IrqCall.run_log hnum h hu) hroom
      exact ⟨t', by rw [irqRun, hu, Option.bind_some, ht']⟩

/-! ## Interrupts -/

omit [DecidableEq H] in
theorem shielded_nil : Shielded ret cpuState ([] : List (IrqEntry H C)) := by
  intro front e rest heq
  exact absurd heq (by simp)

omit [DecidableEq H] in
/-- A handler that does not handle the interrupt shields nothing. -/
theorem shielded_cons {e : IrqEntry H C} :
    Shielded ret cpuState (e :: entries) ↔
      e.alive = true ∧ (ret e.handler (e.ctx.getD cpuState) ≠ irqHandled → Shielded ret cpuState entries) := by
  constructor
  · intro h
    have halive : e.alive = true := by
      by_contra hdead
      obtain ⟨d, hd, -⟩ := h [] e entries rfl (by simpa using hdead)
      cases hd
    refine ⟨halive, fun hret front d rest heq hdead => ?_⟩
    obtain ⟨c, hc, hc'⟩ := h (e :: front) d rest (by rw [heq]; rfl) hdead
    rcases List.mem_cons.mp hc with rfl | hc
    · exact absurd hc'.2 hret
    · exact ⟨c, hc, hc'⟩
  · rintro ⟨halive, hrest⟩ front d rest heq hdead
    cases front with
    | nil =>
        cases heq
        exact absurd (halive.symm.trans hdead) (by decide)
    | cons c front =>
        cases heq
        by_cases hret : ret e.handler (e.ctx.getD cpuState) = irqHandled
        · exact ⟨e, List.mem_cons_self, halive, hret⟩
        · obtain ⟨c, hc, hc'⟩ := hrest hret front d rest rfl hdead
          exact ⟨c, List.mem_cons_of_mem e hc, hc'⟩

omit [DecidableEq H] in
/-- An interrupt calls the installed handlers up to the first that has handled it, just when this one stands
before all null pointers. -/
theorem callHandlers_eq_iff (slots : Nat → IrqSlot H C) (k : Nat)
    (h : ∀ i e, entries[i]? = some e → slots (k + i) = e.slot) :
    ((callHandlers slots ret cpuState k entries.length).calls = expectedCalls ret cpuState (currentOf entries) ∧
        (callHandlers slots ret cpuState k entries.length).nullCall = false) ↔
      Shielded ret cpuState entries := by
  induction entries generalizing k with
  | nil => exact iff_of_true ⟨rfl, rfl⟩ shielded_nil
  | cons e entries ih =>
      have hslot : slots k = e.slot := h 0 e rfl
      have hnext : ∀ i d, entries[i]? = some d → slots (k + 1 + i) = d.slot := by
        intro i d hd
        rw [Nat.add_assoc, Nat.add_comm 1 i]
        exact h (i + 1) d hd
      rw [List.length_cons, callHandlers, hslot, shielded_cons]
      cases halive : e.alive with
      | false => simp [IrqEntry.slot, halive]
      | true =>
          have hcurrent : currentOf (e :: entries) = (e.handler, e.ctx) :: currentOf entries := by
            simp [currentOf, halive]
          rw [hcurrent, expectedCalls]
          by_cases hret : ret e.handler (e.ctx.getD cpuState) = irqHandled
          · simp [IrqEntry.slot, halive, hret]
          · simp [IrqEntry.slot, halive, hret, ih (k + 1) hnext]

omit [DecidableEq H] in
/-- An interrupt on a vector with these entries. -/
theorem interruptHandler_eq_iff (hnum : num < maxInt) (h : (t num).Log entries) :
    ((interruptHandler t num ret cpuState).calls = expectedCalls ret cpuState (currentOf entries) ∧
        (interruptHandler t num ret cpuState).nullCall = false) ↔ Shielded ret cpuState entries := by
  rw [interruptHandler, if_neg (by omega)]
  by_cases hzero : (t num).installed = 0
  · have hnil : entries = [] := List.length_eq_zero_iff.mp (h.installed ▸ hzero)
    rw [if_neg (not_not_intro hzero), hnil]
    exact iff_of_true ⟨rfl, rfl⟩ shielded_nil
  · rw [if_pos hzero, h.installed]
    exact callHandlers_eq_iff (t num).handlers 0 fun i e he => by rw [Nat.zero_add]; exact h.slot i e he

omit [DecidableEq H] in
/-- A vector after `irq_init`. -/
theorem irqInit_log (syscallHandler mmuPfHandler gpfHandler : H) (num : Nat) :
    ((irqInit syscallHandler mmuPfHandler gpfHandler : IrqTable H C) num).Log
      ((bootHandlers syscallHandler mmuPfHandler gpfHandler num).map fun e => ⟨e.1, e.2, true⟩) := by
  have hboot : ∀ handler : H, (IrqHandler.boot handler : IrqHandler H C).Log [⟨handler, none, true⟩] := by
    intro handler
    refine ⟨rfl, fun i e he => ?_⟩
    cases i with
    | zero =>
        cases he
        rfl
    | succ i => cases he
  have hzero : (IrqHandler.zero : IrqHandler H C).Log [] := ⟨rfl, fun i e he => by cases he⟩
  rw [irqInit, bootHandlers]
  by_cases hsyscall : num = vecnumSyscall
  · rw [if_pos hsyscall, hsyscall]
    exact hboot syscallHandler
  · rw [if_neg hsyscall]
    by_cases hpf : num = vecnumPageFault
    · rw [if_pos hpf, hpf]
      exact hboot mmuPfHandler
    · rw [if_neg hpf]
      by_cases hgpf : num = vecnumGpf
      · rw [if_pos hgpf, hgpf]
        exact hboot gpfHandler
      · simp only [if_neg hgpf, Function.update_of_ne hsyscall, Function.update_of_ne hpf,
          Function.update_of_ne hgpf]
        exact hzero

/-- After any calls, a vector is as it should be just when fewer than 16 handlers were ever installed on it, and
a handler that is installed and handles the interrupt stands before every handler that was uninstalled. -/
theorem irq_vector_right_iff (syscallHandler mmuPfHandler gpfHandler : H) (num : Fin maxInt)
    (calls : List (IrqCall H C)) (ret : H → C → UInt32) (cpuState : C) :
    VectorRight (irqInit syscallHandler mmuPfHandler gpfHandler)
        (bootHandlers syscallHandler mmuPfHandler gpfHandler num) num calls ret cpuState ↔
      (everInstalled (bootHandlers syscallHandler mmuPfHandler gpfHandler num) calls).length < maxHandlers ∧
        Shielded ret cpuState
          (everInstalled (bootHandlers syscallHandler mmuPfHandler gpfHandler num) calls) := by
  have hnum : (num : Nat) < maxInt := num.isLt
  have hrange : (0 : Int) ≤ (num : Nat) ∧ ((num : Nat) : Int) < maxInt := ⟨by omega, by omega⟩
  have hstart := irqInit_log (C := C) syscallHandler mmuPfHandler gpfHandler num
  have hroom : ∀ {t : IrqTable H C} {entries}, (t num).Log entries →
      ((∀ handler ctx, (irqInstallHandler t (num : Nat) (some handler) ctx).isSome) ↔
        entries.length < maxHandlers) := by
    intro t entries hlog
    have hone : ∀ handler ctx, (irqInstallHandler t (num : Nat) (some handler) ctx).isSome ↔
        entries.length < maxHandlers := by
      intro handler ctx
      rw [irqInstallHandler, if_pos ⟨hrange, by simp⟩]
      simp only [Int.toNat_natCast, hlog.installed]
      split <;> simp [*]
    exact ⟨fun hall => (hone syscallHandler none).mp (hall syscallHandler none),
      fun hlt handler ctx => (hone handler ctx).mpr hlt⟩
  rw [VectorRight, installedAfter_eq]
  constructor
  · rintro ⟨t', hrun, hcalls, hnull, hinstall⟩
    have hlog := irqRun_log hnum hstart hrun
    exact ⟨(hroom hlog).mp hinstall, (interruptHandler_eq_iff hnum hlog).mp ⟨hcalls, hnull⟩⟩
  · rintro ⟨hlength, hshielded⟩
    obtain ⟨t', hrun⟩ := irqRun_isSome hnum hstart hlength.le
    have hlog := irqRun_log hnum hstart hrun
    obtain ⟨hcalls, hnull⟩ := (interruptHandler_eq_iff hnum hlog).mpr hshielded
    exact ⟨t', hrun, hcalls, hnull, (hroom hlog).mpr hlength⟩

end Table

/-- A handler that was uninstalled leaves a null pointer that the next interrupt calls. -/
theorem uninstalled_handler_called :
    ¬ ∀ (calls : List (IrqCall Nat Nat)) (ret : Nat → Nat → UInt32),
      ValidCalls (bootHandlers 0 0 0 32) calls →
        VectorRight (irqInit 0 0 0) (bootHandlers 0 0 0 32) 32 calls ret 0 := by
  intro hall
  have hvalid : ValidCalls (bootHandlers 0 0 0 32) [IrqCall.install 1 (none : Option Nat), .uninstall 1] := by
    refine ⟨by decide, ?_, by decide, ?_, show ([] : List (Nat × Option Nat)).length < maxHandlers by decide⟩
    · intro handler ctx _ e he
      cases he
    · intro handler ctx hcall
      cases hcall
  obtain ⟨t', hrun, -, hnull, -⟩ := hall _ (fun _ _ => 0) hvalid
  cases hrun
  exact absurd hnull (by decide)

end Kernel
end Micael
