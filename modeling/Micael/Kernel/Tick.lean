import Micael.Kernel.Machine
import Micael.Lib.List

/-!
# Timers

`kernel/tick.c` keeps the timers of a processor in a list that ends with null.  The
timer interrupt calls `tick_inc`, which walks the list once: it calls the callback of
every timer that has expired and then unlinks the timer.  The walk starts from a copy
of the head and reads `next` of a node after its callback and its removal.

A callback may install its own timer again, as the retransmission of TCP does.  The
node is then moved to the front of the list while its neighbours still point at it;
the removal that follows takes it out of the front again, and its `next` now leads
back to the first timer of the list.

Main results:

- Theorem {lit}`tickInstallTimer_chain`: every list of installed timers is well formed.
- Theorem {lit}`tickLoop_visits`: the walk over timers that do not install themselves again.
- Theorem {lit}`tickLoop_trapped`: once the walk is on a cycle it never ends.
- Theorem {lit}`tickInc_meets_iff`: when `tick_inc` does what it should.
-/

namespace Micael
namespace Kernel

open Lib

variable {ν : Type} [DecidableEq ν]

/-! ## The timers of a processor -/

/-- The state that `tick.c` keeps for a processor, with the timers it points at.  A
timer is named by its list node. -/
structure Ticks (ν : Type) where
  /-- the per-processor list head `timers` -/
  timers : ν
  links : Links ν
  /-- `__pcpu_tick` -/
  tick : Nat
  scale : Nat
  wait : ν → Nat
  expr : ν → Nat

/-- `tick_init_timer`. -/
def tickInitTimer (s : Ticks ν) : Ticks ν :=
  { s with links := listInitNull s.links s.timers }

/-- `tick_install_timer`. -/
def tickInstallTimer (s : Ticks ν) (tmr : ν) : Ticks ν :=
  { s with
    expr := Function.update s.expr tmr (u64 (s.tick + s.scale * s.wait tmr))
    links := listAppend s.links s.timers tmr }

/-- A callback: it leaves the list alone, or it installs its own timer again the way
`__retransmit_pkt` does. -/
def timerCallback (rearms : ν → Bool) (s : Ticks ν) (tmr : ν) : Ticks ν :=
  if rearms tmr then
    tickInstallTimer { s with links := listInitNull s.links tmr } tmr
  else s

/-- What the loop of `tick_inc` does with an expired timer. -/
def fireTimer (rearms : ν → Bool) (s : Ticks ν) (tmr : ν) : Ticks ν :=
  let s := timerCallback rearms s tmr
  { s with links := listRemove s.links tmr }

/-- The loop of `tick_inc` with the node it is about to visit and the callbacks it has
made; `none` when the turns do not suffice. -/
def tickLoop (rearms : ν → Bool) (ticks : Nat) :
    Nat → Ticks ν → Option ν → List ν → Option (Ticks ν × List ν)
  | _, s, none, calls => some (s, calls)
  | 0, _, some _, _ => none
  | turns + 1, s, some tmr, calls =>
      if ticks ≥ s.expr tmr then
        let s := fireTimer rearms s tmr
        tickLoop rearms ticks turns s (s.links tmr).next (calls ++ [tmr])
      else
        tickLoop rearms ticks turns s (s.links tmr).next calls

/-- `tick_inc`: the state and the callbacks made, in order. -/
def tickInc (rearms : ν → Bool) (turns : Nat) (s : Ticks ν) : Option (Ticks ν × List ν) :=
  let s := { s with tick := u64 (s.tick + s.scale) }
  tickLoop rearms s.tick turns s (s.links s.timers).next []

/-! ## What it should do -/

/-- The list of timers holds `xs`, in this order. -/
structure TimerList (s : Ticks ν) (xs : List ν) : Prop where
  nodup : (s.timers :: xs).Nodup
  chain : s.links.Chain s.timers xs

/-- The timer expires with the next call of `tick_inc`. -/
def Ticks.Expires (s : Ticks ν) (tmr : ν) : Prop :=
  s.expr tmr ≤ u64 (s.tick + s.scale)

instance (s : Ticks ν) (tmr : ν) : Decidable (s.Expires tmr) :=
  inferInstanceAs (Decidable (_ ≤ _))

/-- `tick_inc` ends, calls the callback of every expired timer once and of no other, and
leaves a list of the timers that have not expired and those installed again. -/
def TickIncMeets (rearms : ν → Bool) (s : Ticks ν) (xs : List ν) : Prop :=
  ∃ turns t calls, tickInc rearms turns s = some (t, calls) ∧
    (∀ tmr, calls.count tmr = if tmr ∈ xs ∧ s.Expires tmr then 1 else 0) ∧
    ∃ ys, TimerList t ys ∧
      ∀ tmr, tmr ∈ ys ↔ tmr ∈ xs ∧ (¬ s.Expires tmr ∨ rearms tmr = true)

/-- `tick_init_timer` makes an empty list. -/
theorem tickInitTimer_chain (s : Ticks ν) : TimerList (tickInitTimer s) [] where
  nodup := List.nodup_singleton _
  chain := by simp [tickInitTimer, listInitNull, Links.Chain]

/-- `tick_install_timer` adds a timer at the front. -/
theorem tickInstallTimer_chain {s : Ticks ν} {xs : List ν} (hlist : TimerList s xs) {tmr : ν}
    (hnew : tmr ∉ s.timers :: xs) : TimerList (tickInstallTimer s tmr) (tmr :: xs) where
  nodup := (List.Perm.swap s.timers tmr xs).nodup_iff.mp (List.nodup_cons.mpr ⟨hnew, hlist.nodup⟩)
  chain := hlist.chain.append hlist.nodup hnew

/-! ## The walk over timers that stay away -/

/-- The walk from a node on, when none of the expired timers ahead installs itself
again, comes to the rest of the list with those timers taken out. -/
theorem tickLoop_visits {rearms : ν → Bool} {ticks turns : Nat} {s : Ticks ν}
    {done ahead rest : List ν} (hlist : TimerList s (done ++ (ahead ++ rest)))
    (hstay : ∀ tmr ∈ ahead, s.expr tmr ≤ ticks → rearms tmr = false) (calls : List ν) :
    ∃ links, TimerList { s with links := links }
        (done ++ (ahead.filter (ticks < s.expr ·) ++ rest)) ∧
      tickLoop rearms ticks (ahead.length + turns) s (ahead ++ rest).head? calls =
        tickLoop rearms ticks turns { s with links := links } rest.head?
          (calls ++ ahead.filter (s.expr · ≤ ticks)) := by
  induction ahead generalizing s done calls with
  | nil =>
      refine ⟨s.links, hlist, ?_⟩
      simp
  | cons tmr ahead ih =>
      have hturns : (tmr :: ahead).length + turns = ahead.length + turns + 1 := by
        simp only [List.length_cons]
        omega
      rw [hturns, List.cons_append, List.head?_cons, tickLoop]
      have hchain : s.links.Chain s.timers (done ++ tmr :: (ahead ++ rest)) := hlist.chain
      have hnext := hchain.links.1
      have hlater : ∀ t ∈ ahead, s.expr t ≤ ticks → rearms t = false :=
        fun t ht => hstay t (List.mem_cons_of_mem _ ht)
      by_cases hexpired : s.expr tmr ≤ ticks
      · -- the callback changes nothing, and the removal leaves `next` of the node
        have hfire : fireTimer rearms s tmr =
            { s with links := listRemove s.links tmr } := by
          rw [fireTimer, timerCallback, hstay tmr List.mem_cons_self hexpired]
          rfl
        have hgone : TimerList { s with links := listRemove s.links tmr }
            (done ++ (ahead ++ rest)) :=
          ⟨hlist.nodup.sublist (by simp), hchain.remove hlist.nodup⟩
        have hself : (s.links tmr).next ≠ some tmr := by
          rw [hnext]
          intro h
          have hmem : tmr ∈ ahead ++ rest := List.mem_of_head? h
          have hnodup := hlist.nodup
          grind
        have hprev : (s.links tmr).prev ≠ some tmr := by
          obtain ⟨p, hp, hprev⟩ := hchain.links.2
          have hnodup := hlist.nodup
          rw [hprev]
          grind
        have hafter : (listRemove s.links tmr tmr).next = (ahead ++ rest).head? := by
          rw [(listRemove_apply hself tmr).1, if_neg hprev, hnext]
        rw [if_pos hexpired, hfire]
        simp only [hafter]
        obtain ⟨links, hrest, hloop⟩ := ih hgone hlater (calls ++ [tmr])
        refine ⟨links, ?_, ?_⟩
        · rw [List.filter_cons_of_neg (by simpa using hexpired)]
          exact hrest
        · rw [List.filter_cons_of_pos (by simpa using hexpired), hloop, List.append_assoc]
          rfl
      · have hkept : TimerList s ((done ++ [tmr]) ++ (ahead ++ rest)) := by
          rw [List.append_assoc]
          exact hlist
        rw [if_neg hexpired, hnext]
        obtain ⟨links, hrest, hloop⟩ := ih hkept hlater calls
        refine ⟨links, ?_, ?_⟩
        · rw [List.filter_cons_of_pos (by simpa using hexpired)]
          rw [List.append_assoc] at hrest
          exact hrest
        · rw [List.filter_cons_of_neg (by simpa using hexpired), hloop]

/-! ## The walk on a cycle -/

/-- The timer {lit}`tmr` has been installed again during the walk: its `next` leads to
the first timer of the list, from where the walk comes back to it. -/
structure Trapped (s : Ticks ν) (ticks : Nat) (tmr first : ν) (cycle : List ν) : Prop where
  head_out : s.timers ∉ cycle
  tmr_mem : tmr ∈ cycle
  first_mem : first ∈ cycle
  head_next : (s.links s.timers).next = some first
  tmr_next : (s.links tmr).next = some first
  stays : ∀ a ∈ cycle, a ≠ tmr → ticks < s.expr a ∧ ∃ b ∈ cycle, (s.links a).next = some b

/-- What installing a timer again and removing it leaves of `next`: the timer points at
the first of the list, and nothing else has changed. -/
theorem rearm_next {l : Links ν} {head tmr first : ν} (hhead : head ≠ tmr)
    (hfirst : (l head).next = some first) (a : ν) :
    (listRemove (listAppend (listInitNull l tmr) head tmr) tmr a).next =
      if a = tmr then some first else (l a).next := by
  have hnull : (listInitNull l tmr head).next = some first := by
    simp [listInitNull, hhead, hfirst]
  have hlinks := listAppend_links hnull hhead
  have hnext : (listAppend (listInitNull l tmr) head tmr tmr).next = some first := by
    rw [(hlinks tmr).1, if_neg (Ne.symm hhead), if_pos rfl]
  by_cases hself : first = tmr
  · -- the timer was the first: it points at itself, and its removal changes nothing
    subst hself
    have hloop : listAppend (listInitNull l first) head first first = ⟨some first, some first⟩ := by
      have hprev : (listAppend (listInitNull l first) head first first).prev = some first := by
        rw [(hlinks first).2, if_pos rfl]
      generalize listAppend (listInitNull l first) head first first = node at hnext hprev
      cases node
      simp_all
    rw [listRemove_unlinked hloop, (hlinks a).1]
    simp only [listInitNull, Links.setPrev_next, Links.setNext_next]
    grind
  · have hprev : (listAppend (listInitNull l tmr) head tmr tmr).prev = some head := by
      rw [(hlinks tmr).2, if_neg (Ne.symm hself), if_pos rfl]
    have hother : (listAppend (listInitNull l tmr) head tmr tmr).next ≠ some tmr := by
      rw [hnext]
      simpa using hself
    rw [(listRemove_apply hother a).1, hnext, hprev, (hlinks a).1]
    simp only [listInitNull, Links.setPrev_next, Links.setNext_next, Option.some.injEq]
    grind

/-- Installing a timer again and removing it closes a cycle, or keeps it closed. -/
theorem Trapped.of_rearm {rearms : ν → Bool} {s : Ticks ν} {ticks : Nat} {tmr first : ν}
    {cycle : List ν} (hrearms : rearms tmr = true)
    (hout : s.timers ∉ cycle) (htmr : tmr ∈ cycle) (hmem : first ∈ cycle)
    (hfirst : (s.links s.timers).next = some first)
    (hstays : ∀ a ∈ cycle, a ≠ tmr → ticks < s.expr a ∧ ∃ b ∈ cycle, (s.links a).next = some b) :
    Trapped (fireTimer rearms s tmr) ticks tmr first cycle := by
  have hhead : s.timers ≠ tmr := fun h => hout (h ▸ htmr)
  have hnext := rearm_next hhead hfirst
  simp only [fireTimer, timerCallback, hrearms, if_true, tickInstallTimer]
  constructor
  case head_out => exact hout
  case tmr_mem => exact htmr
  case first_mem => exact hmem
  case head_next =>
    simp only [hnext, if_neg hhead]
    exact hfirst
  case tmr_next => simp only [hnext, if_true]
  case stays =>
    intro a ha hatmr
    simp only [hnext, if_neg hatmr, Function.update_of_ne hatmr]
    exact hstays a ha hatmr

/-- On a cycle the walk never ends. -/
theorem tickLoop_trapped {rearms : ν → Bool} {ticks turns : Nat} {s : Ticks ν} {tmr first a : ν}
    {cycle : List ν} (htrapped : Trapped s ticks tmr first cycle) (hrearms : rearms tmr = true)
    (ha : a ∈ cycle) (calls : List ν) :
    tickLoop rearms ticks turns s (some a) calls = none := by
  induction turns generalizing s a calls with
  | zero => rfl
  | succ turns ih =>
      rw [tickLoop]
      by_cases hatmr : a = tmr
      · subst hatmr
        by_cases hexpired : s.expr a ≤ ticks
        · have hagain := Trapped.of_rearm hrearms htrapped.head_out htrapped.tmr_mem
            htrapped.first_mem htrapped.head_next htrapped.stays
          simp only [if_pos hexpired, hagain.tmr_next]
          exact ih hagain hagain.first_mem _
        · rw [if_neg hexpired, htrapped.tmr_next]
          exact ih htrapped htrapped.first_mem _
      · obtain ⟨hlater, b, hb, hnext⟩ := htrapped.stays a ha hatmr
        rw [if_neg (by omega), hnext]
        exact ih htrapped hb _

omit [DecidableEq ν] in
/-- Inside a chain the walk goes on to a node of the chain. -/
theorem chain_next_mem {l : Links ν} {h x : ν} {as bs : List ν} (hchain : l.Chain h (as ++ x :: bs)) :
    (∃ first ∈ as ++ [x], (l h).next = some first) ∧
      ∀ a ∈ as, ∃ b ∈ as ++ [x], (l a).next = some b := by
  induction as generalizing h with
  | nil => exact ⟨⟨x, by simp, hchain.1⟩, by simp⟩
  | cons a as ih =>
      obtain ⟨⟨first, hfirst, hnext⟩, hrest⟩ := ih hchain.2.2
      refine ⟨⟨a, by simp, hchain.1⟩, ?_⟩
      intro b hb
      rcases List.mem_cons.mp hb with rfl | hlater
      · exact ⟨first, List.mem_cons_of_mem _ hfirst, hnext⟩
      · obtain ⟨c, hc, hnext'⟩ := hrest b hlater
        exact ⟨c, List.mem_cons_of_mem _ hc, hnext'⟩

/-- A timer that has expired and installs itself again traps the walk that comes to it. -/
theorem tickLoop_rearm {rearms : ν → Bool} {ticks : Nat} {s : Ticks ν} {tmr : ν}
    {done rest : List ν} (hlist : TimerList s (done ++ tmr :: rest))
    (hdone : ∀ a ∈ done, ticks < s.expr a) (hexpired : s.expr tmr ≤ ticks)
    (hrearms : rearms tmr = true) (turns : Nat) (calls : List ν) :
    tickLoop rearms ticks turns s (some tmr) calls = none := by
  have hnodup := hlist.nodup
  obtain ⟨⟨first, hfirst, hnext⟩, hinside⟩ := chain_next_mem hlist.chain
  cases turns with
  | zero => rfl
  | succ turns =>
      have htrapped : Trapped (fireTimer rearms s tmr) ticks tmr first (done ++ [tmr]) := by
        apply Trapped.of_rearm hrearms
        · grind
        · simp
        · exact hfirst
        · exact hnext
        · intro a ha hne
          have hmem : a ∈ done := by grind
          exact ⟨hdone a hmem, hinside a hmem⟩
      rw [tickLoop]
      simp only [if_pos hexpired, htrapped.tmr_next]
      exact tickLoop_trapped htrapped hrearms htrapped.first_mem _

/-! ## The whole call -/

/-- When no expired timer installs itself again, `tick_inc` does what it should. -/
theorem tickInc_meets_of_stay {rearms : ν → Bool} {s : Ticks ν} {xs : List ν}
    (hlist : TimerList s xs) (hstay : ∀ tmr ∈ xs, s.Expires tmr → rearms tmr = false) :
    TickIncMeets rearms s xs := by
  have hlater : TimerList { s with tick := u64 (s.tick + s.scale) } ([] ++ (xs ++ [])) := by
    rw [List.append_nil]
    exact ⟨hlist.nodup, hlist.chain⟩
  obtain ⟨links, hend, hloop⟩ := tickLoop_visits hlater hstay []
  simp only [List.nil_append, List.append_nil] at hend hloop
  refine ⟨xs.length + 0, _, xs.filter (s.expr · ≤ u64 (s.tick + s.scale)), ?_, ?_, _, hend, ?_⟩
  · unfold tickInc
    simp only
    rw [hlist.chain.next_head, hloop]
    rfl
  · intro tmr
    have hnodup : (xs.filter (s.expr · ≤ u64 (s.tick + s.scale))).Nodup :=
      (List.nodup_cons.mp hlist.nodup).2.filter _
    have hmem : tmr ∈ xs.filter (s.expr · ≤ u64 (s.tick + s.scale)) ↔
        tmr ∈ xs ∧ s.Expires tmr := by
      simp [Ticks.Expires]
    rw [hnodup.count]
    simp only [hmem]
  · intro tmr
    simp only [List.mem_filter, decide_eq_true_eq, Ticks.Expires, not_le]
    constructor
    · rintro ⟨hmem, hexpr⟩
      exact ⟨hmem, Or.inl hexpr⟩
    · rintro ⟨hmem, hexpr | hrearms⟩
      · exact ⟨hmem, hexpr⟩
      · refine ⟨hmem, ?_⟩
        by_contra hexpired
        rw [hstay tmr hmem (by simpa [Ticks.Expires] using hexpired)] at hrearms
        exact absurd hrearms (by simp)

/-- More turns than the walk needs to come to the first timer that installs itself again. -/
theorem tickLoop_mono {rearms : ν → Bool} {ticks turns : Nat} {s : Ticks ν} {iter : Option ν}
    {calls : List ν} {result : Ticks ν × List ν}
    (hloop : tickLoop rearms ticks turns s iter calls = some result) (more : Nat) :
    tickLoop rearms ticks (more + turns) s iter calls = some result := by
  induction turns generalizing s iter calls with
  | zero =>
      cases iter with
      | none =>
          rw [tickLoop] at hloop ⊢
          exact hloop
      | some a => exact absurd hloop (by simp [tickLoop])
  | succ turns ih =>
      cases iter with
      | none =>
          rw [tickLoop] at hloop ⊢
          exact hloop
      | some a =>
          rw [← Nat.add_assoc, tickLoop]
          rw [tickLoop] at hloop
          by_cases hexpired : s.expr a ≤ ticks
          · rw [if_pos hexpired] at hloop ⊢
            exact ih hloop
          · rw [if_neg hexpired] at hloop ⊢
            exact ih hloop

omit [DecidableEq ν] in
/-- The first timer of a list with a property. -/
theorem exists_first {p : ν → Prop} [DecidablePred p] {xs : List ν} {x : ν} (hx : x ∈ xs)
    (hp : p x) : ∃ as y bs, xs = as ++ y :: bs ∧ p y ∧ ∀ a ∈ as, ¬ p a := by
  have hsome : (xs.find? (p ·)).isSome = true :=
    List.find?_isSome.mpr ⟨x, hx, decide_eq_true hp⟩
  obtain ⟨y, hfind⟩ := Option.isSome_iff_exists.mp hsome
  obtain ⟨hy, as, bs, hxs, has⟩ := List.find?_eq_some_iff_append.mp hfind
  exact ⟨as, y, bs, hxs, of_decide_eq_true hy, by simpa using has⟩

/-- When an expired timer installs itself again, `tick_inc` never returns. -/
theorem tickInc_none_of_rearm {rearms : ν → Bool} {s : Ticks ν} {xs : List ν}
    (hlist : TimerList s xs) {tmr : ν} (hmem : tmr ∈ xs) (hexpires : s.Expires tmr)
    (hrearms : rearms tmr = true) (turns : Nat) : tickInc rearms turns s = none := by
  obtain ⟨before, first, rest, rfl, ⟨hfirst, hagain⟩, hstay⟩ :=
    exists_first (p := fun a => s.Expires a ∧ rearms a = true) hmem ⟨hexpires, hrearms⟩
  have hlater : TimerList { s with tick := u64 (s.tick + s.scale) }
      ([] ++ (before ++ first :: rest)) := ⟨hlist.nodup, hlist.chain⟩
  obtain ⟨links, hend, hloop⟩ := tickLoop_visits hlater
    (show ∀ a ∈ before, s.expr a ≤ u64 (s.tick + s.scale) → rearms a = false by
      intro a ha hexpired
      by_contra hcontra
      exact hstay a ha ⟨hexpired, by simpa using hcontra⟩) []
  have hnone := tickLoop_rearm hend
    (show ∀ a ∈ before.filter (u64 (s.tick + s.scale) < s.expr ·),
      u64 (s.tick + s.scale) < s.expr a by simp) hfirst hagain turns
  cases hinc : tickInc rearms turns s with
  | none => rfl
  | some result =>
      unfold tickInc at hinc
      simp only at hinc
      rw [hlist.chain.next_head] at hinc
      have hmore := tickLoop_mono hinc before.length
      rw [hloop] at hmore
      rw [List.head?_cons, hnone] at hmore
      exact absurd hmore (by simp)

/-- `tick_inc` calls every expired timer once and leaves the right list exactly when no
expired timer installs itself again. -/
theorem tickInc_meets_iff (rearms : ν → Bool) (s : Ticks ν) (xs : List ν)
    (hlist : TimerList s xs) :
    TickIncMeets rearms s xs ↔ ∀ tmr ∈ xs, s.Expires tmr → rearms tmr = false := by
  constructor
  · rintro ⟨turns, t, calls, hinc, -⟩ tmr hmem hexpires
    by_contra hrearms
    rw [tickInc_none_of_rearm hlist hmem hexpires (by simpa using hrearms)] at hinc
    exact absurd hinc (by simp)
  · exact tickInc_meets_of_stay hlist

/-- A processor with one tick per millisecond whose timer {lit}`n` waits for {lit}`n` ticks;
the node 0 is the head of the list. -/
def freshTicks : Ticks Nat where
  timers := 0
  links := fun _ => ⟨none, none⟩
  tick := 0
  scale := 1
  wait := fun n => n
  expr := fun _ => 0

/-- The timers 1 and 2 installed, in this order. -/
def twoTimers : Ticks Nat := tickInstallTimer (tickInstallTimer (tickInitTimer freshTicks) 1) 2

theorem twoTimers_list : TimerList twoTimers [2, 1] := by
  apply tickInstallTimer_chain
  · apply tickInstallTimer_chain (tickInitTimer_chain freshTicks)
    simp [tickInitTimer, freshTicks]
  · simp [tickInstallTimer, tickInitTimer, freshTicks]

/-- The first tick fires the timer 1, whose callback leaves the list alone. -/
theorem twoTimers_fires :
    twoTimers.Expires 1 ∧ TickIncMeets (fun tmr => tmr == 2) twoTimers [2, 1] := by
  refine ⟨by decide, ?_⟩
  rw [tickInc_meets_iff _ _ _ twoTimers_list]
  decide

/-- When the timer 1 installs itself again, the first tick never ends. -/
theorem twoTimers_never_ends : ¬ TickIncMeets (fun tmr => tmr == 1) twoTimers [2, 1] := by
  rintro ⟨turns, t, calls, hinc, -⟩
  rw [tickInc_none_of_rearm twoTimers_list (by decide) (show twoTimers.Expires 1 by decide)
    (by decide)] at hinc
  exact absurd hinc (by simp)

end Kernel
end Micael
