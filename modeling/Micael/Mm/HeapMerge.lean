import Micael.Mm.HeapInvariant

/-!
# Merging free chunks

`__merge_blocks_prev` lets the chunk before a free one absorb it, as long as that chunk is free, and
`__merge_blocks_next` lets a chunk absorb the one behind it.  `kfree` calls neither; the calls are there as
comments.

Main results:

- Theorem {lit}`ChunkChain.join`: a chunk that absorbs the next one keeps the chunks a tiling.
- Theorem {lit}`joinBlocks_spec`: what one turn of either function does to the headers of an arena.
- Theorem {lit}`mergeBlocksPrev_spec`, {lit}`mergeBlocksNext_spec`: both functions return, for runs of free
  chunks of any length.
- Theorem {lit}`heap_coalescing`: both calls, one after the other.
-/

namespace Micael
namespace Mm

open Foundation

/-! ## The functions -/

/-- What both functions store: the chunk `first` absorbs the chunk `second` behind it. -/
def joinBlocks (mem : Memory) (first second : Nat) : Memory :=
  let mem := setChunkSize mem first
    (u64 ((readChunk mem first).size + (readChunk mem second).size + chunkHeaderSize))
  let mem := setChunkNext mem first (readChunk mem second).next
  if (readChunk mem second).next ≠ 0 then setChunkPrev mem (readChunk mem second).next first else mem

/-- `__merge_blocks_prev`: the chunk it returns, and memory. -/
def mergeBlocksPrev : Nat → Memory → Nat → Nat → Except Halt (Nat × Memory)
  | 0, _, _, _ => .error .hang
  | n + 1, mem, cur, prev =>
      if prev = 0 ∨ (readChunk mem prev).free = false then .ok (cur, mem)
      else
        let mem := joinBlocks mem prev cur
        mergeBlocksPrev n mem prev (readChunk mem prev).prev

/-- `__merge_blocks_next`. -/
def mergeBlocksNext : Nat → Memory → Nat → Nat → Except Halt Memory
  | 0, _, _, _ => .error .hang
  | n + 1, mem, cur, next =>
      if next = 0 ∨ (readChunk mem next).free = false then .ok mem
      else
        let mem := joinBlocks mem cur next
        mergeBlocksNext n mem cur (readChunk mem cur).next

/-! ## One turn -/

/-- What a turn does to the headers: the chunk `c` absorbs the chunk `n`. -/
structure JoinAt (g g' : Nat → MmChunk) (cs : List Nat) (c n : Nat) : Prop where
  head : g' c = { g c with
    size := (g c).size + chunkHeaderSize + (g n).size
    next := (g n).next }
  after : (g n).next ≠ 0 → g' (g n).next = { g (g n).next with prev := c }
  other : ∀ d ∈ cs, d ≠ c → d ≠ (g n).next → g' d = g d

section Turn

variable {g g' : Nat → MmChunk} {stop prev a c n : Nat} {pre post cs : List Nat}

theorem chunkStop_gt (g : Nat → MmChunk) (c : Nat) : c < chunkStop g c := by
  unfold chunkStop chunkHeaderSize
  omega

/-- No chunk is listed twice. -/
theorem ChunkChain.nodup (h : ChunkChain g stop prev a cs) : cs.Nodup := by
  induction h with
  | nil => exact List.nodup_nil
  | @cons prev a cs hprev hnext hrest ih =>
      refine List.nodup_cons.mpr ⟨?_, ih⟩
      intro hmem
      exact absurd (hrest.bounds hmem).1 (not_le.mpr (chunkStop_gt g a))

/-- A list of chunks from a chunk in its middle on. -/
theorem ChunkChain.suffix (h : ChunkChain g stop prev a (pre ++ c :: post)) :
    ChunkChain g stop (pre.getLast?.getD prev) c (c :: post) := by
  induction pre generalizing prev a with
  | nil =>
      cases h with
      | cons hprev hnext hrest => exact .cons hprev hnext hrest
  | cons d pre ih =>
      cases h with
      | cons hprev hnext hrest =>
          have hlater := ih hrest
          rw [List.getLast?_cons]
          exact hlater

/-- The links between neighbours. -/
theorem ChunkChain.neighbours (h : ChunkChain g stop prev a (pre ++ c :: n :: post)) :
    n = chunkStop g c ∧ (g c).next = n ∧ (g n).prev = c := by
  cases h.suffix with
  | cons hprev hnext hrest =>
      cases hrest with
      | cons hback hnext' hrest' =>
          have hlt : chunkStop g c ≠ stop := by
            have hle := hrest'.le_stop
            have hgt := chunkStop_gt g (chunkStop g c)
            omega
          rw [if_neg hlt] at hnext
          exact ⟨rfl, hnext, hback⟩

/-- A chunk lies before the ones behind it, and its `next` as well. -/
theorem ChunkChain.before (h : ChunkChain g stop prev a (c :: post)) (ha : 0 < a) {d : Nat} (hd : d ∈ post) :
    c < d ∧ c ≠ (g d).next := by
  cases h with
  | cons hprev hnext hrest =>
      have hgt := chunkStop_gt g a
      have hle := (hrest.bounds hd).1
      have hd' := chunkStop_gt g d
      refine ⟨by omega, ?_⟩
      rw [hrest.next_eq hd]
      split
      · exact Nat.ne_of_gt ha
      · omega

/-- A chunk that absorbs the next one keeps the chunks a tiling of the arena. -/
theorem ChunkChain.join (h : ChunkChain g stop prev a (pre ++ c :: n :: post)) (ha : 0 < a)
    (hjoin : JoinAt g g' (pre ++ c :: n :: post) c n) : ChunkChain g' stop prev a (pre ++ c :: post) := by
  induction pre generalizing prev a with
  | nil =>
      have hlist := h
      rw [List.nil_append] at hlist ⊢
      cases hlist with
      | cons hprev hnext hrest =>
          cases hrest with
          | cons hback hnext' htail =>
              have hgt := chunkStop_gt g c
              have hgt' := chunkStop_gt g (chunkStop g c)
              have hstop : chunkStop g' c = chunkStop g (chunkStop g c) := by
                simp only [chunkStop, hjoin.head]
                omega
              refine .cons (by rw [hjoin.head]; exact hprev) (by rw [hstop, hjoin.head]; exact hnext') ?_
              rw [hstop]
              apply htail.change_prev
              · intro hmem
                have hle := (htail.bounds hmem).2
                have hnotlast : chunkStop g (chunkStop g c) ≠ stop := by
                  have := chunkStop_gt g (chunkStop g (chunkStop g c))
                  omega
                rw [if_neg hnotlast] at hnext'
                have hafter := hjoin.after (by omega)
                rwa [hnext'] at hafter
              · intro d hd hne
                have hle := (htail.bounds hd).1
                refine hjoin.other d (by simp [hd]) (by omega) ?_
                rw [hnext']
                split
                · omega
                · exact hne
  | cons d pre ih =>
      have hlist := h
      rw [List.cons_append] at hlist ⊢
      have hlater := fun e he => hlist.before ha (d := e) he
      cases hlist with
      | cons hprev hnext hrest =>
          have hgt := chunkStop_gt g d
          have hself : g' d = g d :=
            hjoin.other d (by simp) (hlater c (by simp)).1.ne (hlater n (by simp)).2
          have hstop : chunkStop g' d = chunkStop g d := by rw [chunkStop, chunkStop, hself]
          refine .cons (by rw [hself]; exact hprev) (by rw [hself, hstop]; exact hnext) ?_
          rw [hstop]
          apply ih hrest (by omega)
          exact { hjoin with
            other := fun e he => hjoin.other e (List.mem_cons_of_mem d he) }

end Turn

/-! ## Stores -/

section Stores

variable {mem : Memory} {stop prev a c n : Nat} {pre post : List Nat}

/-- The stores of a turn, one after the other. -/
theorem joinBlocks_eq (hapart : HeadersApart c n) {size next : Nat}
    (hsize : u64 ((readChunk mem c).size + (readChunk mem n).size + chunkHeaderSize) = size)
    (hnext : (readChunk mem n).next = next) :
    joinBlocks mem c n =
      if next ≠ 0 then setChunkPrev (setChunkNext (setChunkSize mem c size) c next) next c
      else setChunkNext (setChunkSize mem c size) c next := by
  have hfirst : ∀ v, (readChunk (setChunkSize mem c v) n).next = next := by
    intro v
    rw [readChunk_setChunkSize_of_apart hapart, hnext]
  have hsecond : ∀ v w, (readChunk (setChunkNext (setChunkSize mem c v) c w) n).next = next := by
    intro v w
    rw [readChunk_setChunkNext_of_apart hapart, hfirst]
  simp only [joinBlocks, hsize, hfirst, hsecond]

/-- A turn writes the size and `next` of the chunk, and the back pointer of the chunk behind both. -/
theorem joinBlocks_spec (h : ChunkChain (readChunk mem) stop prev a (pre ++ c :: n :: post)) (hstop : stop ≤ 2 ^ 64) :
    JoinAt (readChunk mem) (readChunk (joinBlocks mem c n)) (pre ++ c :: n :: post) c n := by
  have hc : c ∈ pre ++ c :: n :: post := by simp
  have hn : n ∈ pre ++ c :: n :: post := by simp
  obtain ⟨hnc, -, -⟩ := h.neighbours
  have hcstop := chunkStop_gt (readChunk mem) c
  have hnstop := chunkStop_gt (readChunk mem) n
  have hend := (h.bounds hn).2
  have hapart : HeadersApart c n := h.headersApart hc hn (by omega)
  have hfits : (readChunk mem c).size + chunkHeaderSize + (readChunk mem n).size < 2 ^ 64 := by
    unfold chunkStop chunkHeaderSize at *
    omega
  have hsize : u64 ((readChunk mem c).size + (readChunk mem n).size + chunkHeaderSize) =
      (readChunk mem c).size + chunkHeaderSize + (readChunk mem n).size := by
    rw [Nat.add_right_comm, u64_eq_of_lt hfits]
  have hnext64 : (readChunk mem n).next < 2 ^ 64 := mem.load_lt (n + 9) 8
  -- the chunk behind both, if there is one, is listed too
  have hbehind : (readChunk mem n).next ≠ 0 →
      (readChunk mem n).next ∈ pre ++ c :: n :: post ∧ (readChunk mem n).next ≠ c := by
    intro hne
    obtain ⟨hnext, hmem⟩ := h.next_mem hn hne
    exact ⟨hmem, by omega⟩
  rw [joinBlocks_eq hapart hsize rfl]
  constructor
  case head =>
    split
    · rename_i hne
      obtain ⟨hmem, hother⟩ := hbehind hne
      rw [readChunk_setChunkPrev_of_apart (h.headersApart hmem hc hother), readChunk_setChunkNext hnext64,
        readChunk_setChunkSize hfits]
    · rw [readChunk_setChunkNext hnext64, readChunk_setChunkSize hfits]
  case after =>
    intro hne
    obtain ⟨hmem, hother⟩ := hbehind hne
    have hapart' := h.headersApart hc hmem hother.symm
    rw [if_pos hne, readChunk_setChunkPrev (by omega), readChunk_setChunkNext_of_apart hapart',
      readChunk_setChunkSize_of_apart hapart']
  case other =>
    intro d hd hdc hdn
    have hapart' := h.headersApart hc hd hdc.symm
    split
    · rename_i hne
      obtain ⟨hmem, -⟩ := hbehind hne
      rw [readChunk_setChunkPrev_of_apart (h.headersApart hmem hd hdn.symm),
        readChunk_setChunkNext_of_apart hapart', readChunk_setChunkSize_of_apart hapart']
    · rw [readChunk_setChunkNext_of_apart hapart', readChunk_setChunkSize_of_apart hapart']

/-- A turn writes inside two headers. -/
theorem joinBlocks_outside {x : Nat} (h : ChunkChain (readChunk mem) stop prev a (pre ++ c :: n :: post))
    (hx : ∀ d ∈ pre ++ c :: n :: post, x ∉ headerBytes d) : joinBlocks mem c n x = mem x := by
  have hc : c ∈ pre ++ c :: n :: post := by simp
  have hn : n ∈ pre ++ c :: n :: post := by simp
  have hstore : ∀ (m : Memory) (d o k v : Nat), d ∈ pre ++ c :: n :: post → o + k ≤ chunkHeaderSize →
      m.store (d + o) k v x = m x := by
    intro m d o k v hd hok
    have hout := hx d hd
    rw [headerBytes, Set.mem_Ico] at hout
    exact Memory.store_of_outside (by omega)
  have hcn := (h.neighbours).1 ▸ chunkStop_gt (readChunk mem) c
  rw [joinBlocks_eq (h.headersApart hc hn hcn.ne) rfl rfl]
  split
  · rename_i hne
    have hmem := (h.next_mem hn hne).2
    rw [setChunkPrev, hstore _ _ 17 8 _ hmem (by decide), setChunkNext, hstore _ _ 9 8 _ hc (by decide), setChunkSize]
    exact hstore _ _ 0 8 _ hc (by decide)
  · rw [setChunkNext, hstore _ _ 9 8 _ hc (by decide), setChunkSize]
    exact hstore _ _ 0 8 _ hc (by decide)

end Stores

/-! ## Runs of free chunks -/

/-- The free chunk `c` has become a part of the free chunk `c'`; all others are as they were, and only free ones
are gone. -/
structure Merged (mem mem' : Memory) (cs cs' : List Nat) (c c' : Nat) : Prop where
  listed : c' ∈ cs ∧ c' ∈ cs'
  kept : ∀ d ∈ cs, (readChunk mem d).free = false → d ∈ cs'
  same : ∀ d ∈ cs', d ≠ c' → d ∈ cs ∧ (readChunk mem' d).size = (readChunk mem d).size ∧
    (readChunk mem' d).free = (readChunk mem d).free
  gone : c' ≠ c → c ∉ cs'
  start : c' ≤ c
  stop : chunkStop (readChunk mem) c ≤ chunkStop (readChunk mem') c'
  wasFree : (readChunk mem c').free = true
  free : (readChunk mem' c').free = true
  outside : ∀ x, (∀ d ∈ cs, x ∉ headerBytes d) → mem' x = mem x

section Runs

variable {mem mem' mem'' : Memory} {stop a c c' c'' n x : Nat} {pre post cs cs' cs'' : List Nat}

theorem Merged.refl (hc : c ∈ cs) (hfree : (readChunk mem c).free = true) : Merged mem mem cs cs c c where
  listed := ⟨hc, hc⟩
  kept := fun _ hd _ => hd
  same := fun _ hd _ => ⟨hd, rfl, rfl⟩
  gone := fun hne => absurd rfl hne
  start := Nat.le_refl c
  stop := Nat.le_refl _
  wasFree := hfree
  free := hfree
  outside := fun _ _ => rfl

/-- Used chunks are as they were. -/
theorem Merged.used (h : Merged mem mem' cs cs' c c') {d : Nat} (hd : d ∈ cs)
    (hused : (readChunk mem d).free = false) :
    d ∈ cs' ∧ (readChunk mem' d).free = false ∧ (readChunk mem' d).size = (readChunk mem d).size := by
  have hmem := h.kept d hd hused
  have hne : d ≠ c' := by
    intro heq
    rw [heq, h.wasFree] at hused
    cases hused
  obtain ⟨-, hsize, hfree⟩ := h.same d hmem hne
  exact ⟨hmem, hfree.trans hused, hsize⟩

/-- No chunk becomes a used one. -/
theorem Merged.of_used (h : Merged mem mem' cs cs' c c') {d : Nat} (hd : d ∈ cs')
    (hused : (readChunk mem' d).free = false) : d ∈ cs ∧ (readChunk mem d).free = false := by
  have hne : d ≠ c' := by
    intro heq
    rw [heq, h.free] at hused
    cases hused
  obtain ⟨hmem, -, hfree⟩ := h.same d hd hne
  exact ⟨hmem, hfree.symm.trans hused⟩

theorem Merged.of_mem (h : Merged mem mem' cs cs' c c') {d : Nat} (hd : d ∈ cs') : d ∈ cs := by
  by_cases hdc : d = c'
  · exact hdc ▸ h.listed.1
  · exact (h.same d hd hdc).1

theorem Merged.trans (h : Merged mem mem' cs cs' c c') (h' : Merged mem' mem'' cs' cs'' c' c'') :
    Merged mem mem'' cs cs'' c c'' where
  listed := ⟨h.of_mem h'.listed.1, h'.listed.2⟩
  kept := by
    intro d hd hused
    obtain ⟨hmem, hfree, -⟩ := h.used hd hused
    exact h'.kept d hmem hfree
  same := by
    intro d hd hne
    obtain ⟨hmem, hsize, hfree⟩ := h'.same d hd hne
    have hdc : d ≠ c' := by
      rintro rfl
      exact h'.gone (Ne.symm hne) hd
    obtain ⟨hmem', hsize', hfree'⟩ := h.same d hmem hdc
    exact ⟨hmem', hsize.trans hsize', hfree.trans hfree'⟩
  gone := by
    intro hne hmem
    have hmem' := h'.of_mem hmem
    by_cases hcc : c' = c
    · exact h'.gone (hcc ▸ hne) (hcc ▸ hmem)
    · exact h.gone hcc hmem'
  start := h'.start.trans h.start
  stop := h.stop.trans h'.stop
  wasFree := by
    by_cases hcc : c'' = c'
    · exact hcc ▸ h.wasFree
    · exact (h.same c'' h'.listed.1 hcc).2.2.symm.trans h'.wasFree
  free := h'.free
  outside := by
    intro x hx
    rw [h'.outside x fun d hd => hx d (h.of_mem hd), h.outside x hx]

theorem mem_join_iff {d : Nat} : d ∈ pre ++ c :: n :: post ↔ d = n ∨ d ∈ pre ++ c :: post := by
  simp only [List.mem_append, List.mem_cons]
  tauto

/-- After a turn, each of the two free chunks is a part of the first one. -/
theorem merged_join (h : ChunkChain (readChunk mem) stop 0 a (pre ++ c :: n :: post)) (ha : 0 < a)
    (hstop : stop ≤ 2 ^ 64) (hc : (readChunk mem c).free = true) (hn : (readChunk mem n).free = true)
    (hx : x = c ∨ x = n) :
    Merged mem (joinBlocks mem c n) (pre ++ c :: n :: post) (pre ++ c :: post) x c := by
  have hjoin := joinBlocks_spec h hstop
  obtain ⟨hnc, -, -⟩ := h.neighbours
  have hcstop := chunkStop_gt (readChunk mem) c
  have hnstop := chunkStop_gt (readChunk mem) n
  have hnodup := h.nodup
  have hend : chunkStop (readChunk (joinBlocks mem c n)) c = chunkStop (readChunk mem) n := by
    rw [chunkStop, hjoin.head, chunkStop, hnc, chunkStop]
    simp only
    omega
  constructor
  case listed => simp
  case kept =>
    intro d hd hused
    have hdn : d ≠ n := by
      intro heq
      rw [heq, hn] at hused
      cases hused
    exact (mem_join_iff.mp hd).resolve_left hdn
  case same =>
    intro d hd hne
    have hmem : d ∈ pre ++ c :: n :: post := mem_join_iff.mpr (.inr hd)
    refine ⟨hmem, ?_⟩
    by_cases hdn : d = (readChunk mem n).next
    · have hpos : (readChunk mem n).next ≠ 0 := by
        have hle := (h.bounds hmem).1
        omega
      rw [hdn, hjoin.after hpos]
      exact ⟨rfl, rfl⟩
    · rw [hjoin.other d hmem hne hdn]
      exact ⟨rfl, rfl⟩
  case gone =>
    intro hne
    have hxn : x = n := hx.resolve_left (Ne.symm hne)
    subst hxn
    have hperm : (pre ++ c :: x :: post).Perm (x :: (pre ++ c :: post)) := by
      rw [List.append_cons pre c (x :: post), List.append_cons pre c post]
      exact List.perm_middle
    exact (List.nodup_cons.mp (hperm.nodup_iff.mp hnodup)).1
  case start => rcases hx with rfl | rfl <;> omega
  case stop =>
    rw [hend]
    rcases hx with rfl | rfl
    · omega
    · exact Nat.le_refl _
  case wasFree => exact hc
  case free =>
    rw [hjoin.head]
    exact hc
  case outside => exact fun x hx => joinBlocks_outside h hx

/-- The link to the chunk before. -/
theorem ChunkChain.prev_eq {g : Nat → MmChunk} {prev : Nat} (h : ChunkChain g stop prev a (pre ++ c :: post)) :
    (g c).prev = pre.getLast?.getD prev := by
  cases h.suffix with
  | cons hprev hnext hrest => exact hprev

/-- `__merge_blocks_prev` of a free chunk returns the chunk that begins the run of free chunks, which holds it. -/
theorem mergeBlocksPrev_spec {fuel : Nat} (h : ChunkChain (readChunk mem) stop 0 a (pre ++ c :: post)) (ha : 0 < a)
    (hstop : stop ≤ 2 ^ 64) (hfree : (readChunk mem c).free = true) (hfuel : pre.length < fuel) :
    ∃ c' mem' pre', mergeBlocksPrev fuel mem c (readChunk mem c).prev = .ok (c', mem') ∧
      ChunkChain (readChunk mem') stop 0 a (pre' ++ c' :: post) ∧
      Merged mem mem' (pre ++ c :: post) (pre' ++ c' :: post) c c' ∧
      ((readChunk mem' c').prev = 0 ∨ (readChunk mem' (readChunk mem' c').prev).free = false) := by
  obtain ⟨fuel, rfl⟩ : ∃ m, fuel = m + 1 := ⟨fuel - 1, by omega⟩
  induction pre using List.reverseRecOn generalizing mem c fuel with
  | nil =>
      have hprev : (readChunk mem c).prev = 0 := h.prev_eq
      refine ⟨c, mem, [], ?_, h, .refl (by simp) hfree, .inl hprev⟩
      rw [mergeBlocksPrev, if_pos (.inl hprev)]
  | append_singleton pre p ih =>
      have hprev : (readChunk mem c).prev = p := by
        rw [h.prev_eq, List.getLast?_concat, Option.getD_some]
      cases hp : (readChunk mem p).free with
      | false =>
          refine ⟨c, mem, pre ++ [p], ?_, h, .refl (by simp) hfree, .inr (hprev ▸ hp)⟩
          rw [mergeBlocksPrev, hprev, if_pos (.inr hp)]
      | true =>
          rw [← List.append_cons] at h ⊢
          have hle := (h.bounds (c := p) (by simp)).1
          have hjoined := h.join ha (joinBlocks_spec h hstop)
          have hmerged := merged_join h ha hstop hp hfree (.inr rfl)
          rw [List.length_append, List.length_singleton] at hfuel
          obtain ⟨fuel, rfl⟩ : ∃ m, fuel = m + 1 := ⟨fuel - 1, by omega⟩
          obtain ⟨c', mem', pre', hrun, hchain, hrest, hend⟩ := ih hjoined hmerged.free fuel (by omega)
          refine ⟨c', mem', pre', ?_, hchain, hmerged.trans hrest, hend⟩
          have hgo : ¬ (p = 0 ∨ (readChunk mem p).free = false) := not_or.mpr ⟨by omega, by simp [hp]⟩
          rw [mergeBlocksPrev, hprev, if_neg hgo]
          exact hrun

/-- `__merge_blocks_next` of a free chunk makes the run of free chunks behind it a part of it. -/
theorem mergeBlocksNext_spec {fuel : Nat} (h : ChunkChain (readChunk mem) stop 0 a (pre ++ c :: post)) (ha : 0 < a)
    (hstop : stop ≤ 2 ^ 64) (hfree : (readChunk mem c).free = true) (hfuel : post.length < fuel) :
    ∃ mem' post', mergeBlocksNext fuel mem c (readChunk mem c).next = .ok mem' ∧
      ChunkChain (readChunk mem') stop 0 a (pre ++ c :: post') ∧
      Merged mem mem' (pre ++ c :: post) (pre ++ c :: post') c c ∧
      ((readChunk mem' c).next = 0 ∨ (readChunk mem' (readChunk mem' c).next).free = false) := by
  obtain ⟨fuel, rfl⟩ : ∃ m, fuel = m + 1 := ⟨fuel - 1, by omega⟩
  induction post generalizing mem fuel with
  | nil =>
      have hnext : (readChunk mem c).next = 0 := by
        cases h.suffix with
        | cons hprev hnext hrest =>
            cases hrest with
            | nil => rw [hnext, if_pos rfl]
      refine ⟨mem, [], ?_, h, .refl (by simp) hfree, .inl hnext⟩
      rw [mergeBlocksNext, if_pos (.inl hnext)]
  | cons n post ih =>
      obtain ⟨-, hnext, -⟩ := h.neighbours
      cases hn : (readChunk mem n).free with
      | false =>
          refine ⟨mem, n :: post, ?_, h, .refl (by simp) hfree, .inr (hnext ▸ hn)⟩
          rw [mergeBlocksNext, hnext, if_pos (.inr hn)]
      | true =>
          have hle := (h.bounds (c := n) (by simp)).1
          have hjoined := h.join ha (joinBlocks_spec h hstop)
          have hmerged := merged_join h ha hstop hfree hn (.inl rfl)
          rw [List.length_cons] at hfuel
          obtain ⟨fuel, rfl⟩ : ∃ m, fuel = m + 1 := ⟨fuel - 1, by omega⟩
          obtain ⟨mem', post', hrun, hchain, hrest, hend⟩ := ih hjoined hmerged.free fuel (by omega)
          refine ⟨mem', post', ?_, hchain, hmerged.trans hrest, hend⟩
          have hgo : ¬ (n = 0 ∨ (readChunk mem n).free = false) := not_or.mpr ⟨by omega, by simp [hn]⟩
          rw [mergeBlocksNext, hnext, if_neg hgo]
          exact hrun

end Runs

/-! ## Both calls -/

/-- What the two calls leave of an arena with the free chunk `b`: chunks that tile it, the used ones as they were, and
a free chunk `b'` that covers `b` and has no free neighbour.  Nothing but headers is written. -/
structure Coalesced (arena : ArenaBlock) (mem mem' : Memory) (cs cs' : List Nat) (b b' : Nat) : Prop where
  tiled : arena.Chunks mem' cs'
  used : ∀ c ∈ cs, (readChunk mem c).free = false →
    c ∈ cs' ∧ (readChunk mem' c).free = false ∧ (readChunk mem' c).size = (readChunk mem c).size
  onlyUsed : ∀ c ∈ cs', (readChunk mem' c).free = false → c ∈ cs ∧ (readChunk mem c).free = false
  merged : b' ∈ cs' ∧ (readChunk mem' b').free = true
  covers : b' ≤ b ∧ chunkStop (readChunk mem) b ≤ chunkStop (readChunk mem') b'
  prev : (readChunk mem' b').prev ≠ 0 → (readChunk mem' (readChunk mem' b').prev).free = false
  next : (readChunk mem' b').next ≠ 0 → (readChunk mem' (readChunk mem' b').next).free = false
  outside : ∀ x, (∀ c ∈ cs, x ∉ headerBytes c) → mem' x = mem x

/-- The two calls that `kfree` leaves out return, whatever runs of free chunks there are on both sides. -/
theorem heap_coalescing {arena : ArenaBlock} {mem : Memory} {cs : List Nat} {b : Nat} (hbase : 0 < arena.base)
    (hstop : arena.stop ≤ 2 ^ 64) (hchunks : arena.Chunks mem cs) (hb : b ∈ cs)
    (hfree : (readChunk mem b).free = true) :
    ∃ b' mem₁ mem₂ cs', mergeBlocksPrev walkFuel mem b (readChunk mem b).prev = .ok (b', mem₁) ∧
      mergeBlocksNext walkFuel mem₁ b' (readChunk mem₁ b').next = .ok mem₂ ∧
      Coalesced arena mem mem₂ cs cs' b b' := by
  obtain ⟨pre, post, rfl⟩ := List.append_of_mem hb
  have hfuel : ∀ {m : Memory} {xs ys : List Nat} {c : Nat}, arena.Chunks m (xs ++ c :: ys) →
      xs.length < walkFuel ∧ ys.length < walkFuel := by
    intro m xs ys c hlist
    have hlen := hlist.length_le
    rw [List.length_append, List.length_cons] at hlen
    unfold walkFuel
    omega
  obtain ⟨b', mem₁, pre', hrun₁, hchain₁, hmerged₁, hprev⟩ :=
    mergeBlocksPrev_spec hchunks hbase hstop hfree (hfuel hchunks).1
  obtain ⟨mem₂, post', hrun₂, hchain₂, hmerged₂, hnext⟩ :=
    mergeBlocksNext_spec hchain₁ hbase hstop hmerged₁.free (hfuel hchain₁).2
  have hmerged := hmerged₁.trans hmerged₂
  refine ⟨b', mem₁, mem₂, pre' ++ b' :: post', hrun₁, hrun₂, ?_⟩
  constructor
  case tiled => exact hchain₂
  case used => exact fun c hc hused => hmerged.used hc hused
  case onlyUsed => exact fun c hc hused => hmerged.of_used hc hused
  case merged => exact ⟨hmerged.listed.2, hmerged.free⟩
  case covers => exact ⟨hmerged.start, hmerged.stop⟩
  case prev =>
    -- the second call keeps the link to the chunk before, and that chunk
    intro hne
    rw [hchain₂.prev_eq] at hne ⊢
    rw [hchain₁.prev_eq] at hprev
    cases hlast : pre'.getLast? with
    | none =>
        rw [hlast] at hne
        exact absurd rfl hne
    | some p =>
        rw [hlast, Option.getD_some] at hne hprev
        rw [Option.getD_some]
        have hp : p ∈ pre' ++ b' :: post := List.mem_append_left _ (List.mem_of_getLast? hlast)
        exact (hmerged₂.used hp (hprev.resolve_left hne)).2.1
  case next => exact fun hne => hnext.resolve_left hne
  case outside => exact hmerged.outside

/-- The arena of `__mem`, cut into two free chunks. -/
def twoFree : Memory := splitBlockAt (initArena zeroMemory 0x1000 0x10000 heapArenaSize) 0x10000 100

theorem twoFree_chunks : ArenaBlock.Chunks ⟨0x1000, 0x10000, blockSize heapArenaSize⟩ twoFree [0x10000, 0x1007d] := by
  have hfirst : readChunk twoFree 0x10000 = ⟨100, true, 0x1007d, 0⟩ := by decide +kernel
  have hsecond : readChunk twoFree 0x1007d = ⟨16234, true, 0, 0x10000⟩ := by decide +kernel
  have hstop : chunkStop (readChunk twoFree) 0x10000 = 0x1007d := by rw [chunkStop, hfirst]; rfl
  have hend : chunkStop (readChunk twoFree) 0x1007d = 0x14000 := by rw [chunkStop, hsecond]; rfl
  refine .cons (by rw [hfirst]) (by rw [hfirst, hstop]; rfl) ?_
  rw [hstop]
  refine .cons (by rw [hsecond]) (by rw [hsecond, hend]; rfl) ?_
  rw [hend]
  exact .nil

theorem twoFree_coalesced :
    ∃ b' mem₁ mem₂ cs', mergeBlocksPrev walkFuel twoFree 0x1007d (readChunk twoFree 0x1007d).prev = .ok (b', mem₁) ∧
      mergeBlocksNext walkFuel mem₁ b' (readChunk mem₁ b').next = .ok mem₂ ∧
      Coalesced ⟨0x1000, 0x10000, blockSize heapArenaSize⟩ twoFree mem₂ [0x10000, 0x1007d] cs' 0x1007d b' :=
  heap_coalescing (by decide) (by decide) twoFree_chunks (by decide) (by decide +kernel)

end Mm
end Micael
