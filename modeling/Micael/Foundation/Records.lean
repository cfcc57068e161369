import Micael.Foundation.Layout

/-!
# Records that say how long they are

A table in memory is a list of records, each of which says how far it is to the next one.  A program visits
them in order, from the first one on, as long as a test of the address says that there are more.  A record that
says that it has no length is never left.

Main results:

- Theorem {lit}`recordLoop_ok_iff`: what a walk that ends has visited.
- Theorem {lit}`records_exist`: a bounded walk ends unless it comes to a record without length.
- Theorem {lit}`recordLoop_stored`: a walk over a table that was put together from records.
-/

namespace Micael
namespace Foundation

variable {σ ε : Type}

/-- The walk from the record at an address on, with a number of turns. -/
def recordLoop (len : Nat → Nat) (more : Nat → Prop) [DecidablePred more] (visit : σ → Nat → Except ε σ) :
    Nat → Nat → σ → Option (Except ε σ)
  | 0, a, s => if more a then none else some (.ok s)
  | turns + 1, a, s =>
      if more a then
        match visit s a with
        | .error e => some (.error e)
        | .ok t => recordLoop len more visit turns (a + len a) t
      else some (.ok s)

/-- The addresses of the records from one on. -/
inductive Records (len : Nat → Nat) (more : Nat → Prop) : Nat → List Nat → Prop
  | nil {a : Nat} : ¬ more a → Records len more a []
  | cons {a : Nat} {addrs : List Nat} :
      more a → Records len more (a + len a) addrs → Records len more a (a :: addrs)

/-- The address of a record that a walk comes to. -/
inductive Reaches (len : Nat → Nat) (more : Nat → Prop) (a : Nat) : Nat → Prop
  | refl : Reaches len more a a
  | tail {b : Nat} : Reaches len more a b → more b → Reaches len more a (b + len b)

/-- Visits that succeed or fail whatever the state is. -/
theorem foldlM_ok_iff {α : Type*} {f : σ → α → Except ε σ} {p : α → Prop} {s : σ} {l : List α}
    (h : ∀ s a, (∃ t, f s a = .ok t) ↔ p a) : (∃ t, l.foldlM f s = .ok t) ↔ ∀ a ∈ l, p a := by
  induction l generalizing s with
  | nil => simp [pure, Except.pure]
  | cons a l ih =>
      rw [List.foldlM_cons, List.forall_mem_cons, ← h s a]
      cases hvisit : f s a with
      | error e => simp [bind, Except.bind]
      | ok u => simpa [bind, Except.bind] using ih

section Loop

variable {len : Nat → Nat} {more : Nat → Prop} {a b : Nat} {visit : σ → Nat → Except ε σ} {s t : σ}
  {addrs : List Nat}

/-- With a turn for every record, the walk visits all of them, unless a visit fails. -/
theorem recordLoop_records [DecidablePred more] (h : Records len more a addrs) :
    recordLoop len more visit addrs.length a s = some (addrs.foldlM visit s) := by
  induction h generalizing s with
  | nil hstop =>
      rw [List.length_nil, recordLoop, if_neg hstop]
      rfl
  | @cons a addrs hmore _ ih =>
      rw [List.length_cons, recordLoop, if_pos hmore, List.foldlM_cons]
      cases visit s a with
      | error e => rfl
      | ok u => exact ih

/-- A walk that ends has visited the records. -/
theorem records_of_recordLoop [DecidablePred more] {turns : Nat} (h : recordLoop len more visit turns a s = some (.ok t)) :
    ∃ addrs, Records len more a addrs ∧ addrs.foldlM visit s = .ok t := by
  induction turns generalizing a s with
  | zero =>
      rw [recordLoop] at h
      split at h
      case isTrue => cases h
      case isFalse hstop =>
          cases h
          exact ⟨[], .nil hstop, rfl⟩
  | succ turns ih =>
      rw [recordLoop] at h
      split at h
      case isFalse hstop =>
          cases h
          exact ⟨[], .nil hstop, rfl⟩
      case isTrue hmore =>
          cases hvisit : visit s a with
          | error e => simp [hvisit] at h
          | ok u =>
              simp only [hvisit] at h
              obtain ⟨addrs, hrecords, hfold⟩ := ih h
              refine ⟨a :: addrs, .cons hmore hrecords, ?_⟩
              rw [List.foldlM_cons, hvisit]
              exact hfold

/-- A walk ends well exactly if there is a list of records whose visits succeed. -/
theorem recordLoop_ok_iff [DecidablePred more] :
    (∃ turns, recordLoop len more visit turns a s = some (.ok t)) ↔
      ∃ addrs, Records len more a addrs ∧ addrs.foldlM visit s = .ok t := by
  constructor
  · rintro ⟨turns, h⟩
    exact records_of_recordLoop h
  · rintro ⟨addrs, hrecords, hfold⟩
    exact ⟨addrs.length, (recordLoop_records hrecords).trans (congrArg some hfold)⟩

/-- The first of the records, and the others. -/
theorem Records.uncons (h : Records len more a addrs) (hmore : more a) :
    ∃ rest, addrs = a :: rest ∧ Records len more (a + len a) rest := by
  cases h with
  | nil hstop => exact absurd hmore hstop
  | cons _ hrest => exact ⟨_, rfl, hrest⟩

/-- No list of records begins with one that has no length. -/
theorem Records.length_pos (h : Records len more a addrs) (hmore : more a) : len a ≠ 0 := by
  intro hzero
  induction addrs with
  | nil =>
      obtain ⟨rest, hnil, -⟩ := h.uncons hmore
      cases hnil
  | cons first addrs ih =>
      obtain ⟨rest, hcons, hrest⟩ := h.uncons hmore
      rw [hzero, Nat.add_zero] at hrest
      exact ih ((List.cons.inj hcons).2 ▸ hrest)

/-- From every record that is reached on, the rest of the list is one. -/
theorem Records.of_reaches (h : Records len more a addrs) (hreach : Reaches len more a b) :
    ∃ before rest, addrs = before ++ rest ∧ Records len more b rest := by
  induction hreach with
  | refl => exact ⟨[], addrs, rfl, h⟩
  | @tail b _ hmore ih =>
      obtain ⟨before, rest, rfl, hrest⟩ := ih
      obtain ⟨rest', rfl, hnext⟩ := hrest.uncons hmore
      exact ⟨before ++ [b], rest', by simp, hnext⟩

theorem Reaches.head (hmore : more a) (h : Reaches len more (a + len a) b) : Reaches len more a b := by
  induction h with
  | refl => exact .tail .refl hmore
  | tail _ hb ih => exact .tail ih hb

/-- The list is that of the records that a walk comes to. -/
theorem Records.mem_iff (h : Records len more a addrs) : b ∈ addrs ↔ Reaches len more a b ∧ more b := by
  constructor
  · intro hb
    induction h with
    | nil => cases hb
    | cons hmore _ ih =>
        rcases List.mem_cons.mp hb with rfl | hb
        · exact ⟨.refl, hmore⟩
        · exact ⟨(ih hb).1.head hmore, (ih hb).2⟩
  · rintro ⟨hreach, hmore⟩
    obtain ⟨before, rest, rfl, hrest⟩ := h.of_reaches hreach
    obtain ⟨rest', rfl, -⟩ := hrest.uncons hmore
    exact List.mem_append_right before List.mem_cons_self

/-- Every record of a walk that comes to its end has a length. -/
theorem Records.length_of_reaches (h : Records len more a addrs) (hreach : Reaches len more a b) (hmore : more b) :
    len b ≠ 0 := by
  obtain ⟨-, rest, -, hrest⟩ := h.of_reaches hreach
  exact hrest.length_pos hmore

/-- A walk comes to the end if all records that it comes to have a length and lie below a bound. -/
theorem records_exist {bound : Nat} (hlen : ∀ b, Reaches len more a b → more b → len b ≠ 0)
    (hbound : ∀ b, Reaches len more a b → more b → b < bound) : ∃ addrs, Records len more a addrs := by
  -- every record brings the walk nearer to the bound
  induction hleft : bound - a using Nat.strong_induction_on generalizing a with
  | h left ih =>
      by_cases hmore : more a
      · have hpos := hlen a .refl hmore
        have hlt := hbound a .refl hmore
        obtain ⟨addrs, hrest⟩ := ih (bound - (a + len a)) (by omega)
          (fun b hreach => hlen b (hreach.head hmore)) (fun b hreach => hbound b (hreach.head hmore)) rfl
        exact ⟨a :: addrs, .cons hmore hrest⟩
      · exact ⟨[], .nil hmore⟩

end Loop

section Stored

variable {ρ : Type*} {bytes : ρ → List UInt8} {mem : Memory} {len : Nat → Nat} {more : Nat → Prop}
  [DecidablePred more] {a : Nat}

/-- A walk over a table that was put together from records, and lies between two bounds, visits them in order. -/
theorem recordLoop_stored {visit : σ → Nat → Except ε σ} {visitRecord : σ → ρ → Except ε σ} {table : List ρ}
    {low high : Nat} (hpos : ∀ r ∈ table, bytes r ≠ [])
    (hlen : ∀ r ∈ table, ∀ b, mem.HoldsAt b (bytes r) → len b = (bytes r).length)
    (hvisit : ∀ r ∈ table, ∀ b s, low ≤ b → b + (bytes r).length ≤ high → mem.HoldsAt b (bytes r) →
      visit s b = visitRecord s r)
    (hmore : ∀ b, low ≤ b → b < high → more b) (hend : ¬ more high) (hlow : low ≤ a)
    (hhigh : a + (table.flatMap bytes).length = high) (h : mem.HoldsAt a (table.flatMap bytes)) (s : σ) :
    recordLoop len more visit table.length a s = some (table.foldlM visitRecord s) := by
  induction table generalizing a s with
  | nil =>
      rw [List.flatMap_nil, List.length_nil, Nat.add_zero] at hhigh
      rw [List.length_nil, recordLoop, if_neg (hhigh ▸ hend)]
      rfl
  | cons r table ih =>
      rw [List.flatMap_cons, Memory.holdsAt_append] at h
      rw [List.flatMap_cons, List.length_append, ← Nat.add_assoc] at hhigh
      have hfirst := List.length_pos_iff.mpr (hpos r List.mem_cons_self)
      have hstep := hlen r List.mem_cons_self a h.1
      have hturn := hvisit r List.mem_cons_self a s hlow (by omega) h.1
      rw [List.length_cons, recordLoop, if_pos (hmore a hlow (by omega)), hturn, List.foldlM_cons, hstep]
      cases visitRecord s r with
      | error e => rfl
      | ok t =>
          exact ih (fun q hq => hpos q (List.mem_cons_of_mem r hq)) (fun q hq => hlen q (List.mem_cons_of_mem r hq))
            (fun q hq => hvisit q (List.mem_cons_of_mem r hq)) (by omega) hhigh h.2 t

end Stored

end Foundation
end Micael
