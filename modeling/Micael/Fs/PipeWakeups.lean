import Micael.Fs.Pipe
import Micael.Sync.Wait

/-!
# Sleeping readers and writers of a pipe

Any number of tasks read from and write to one pipe.  A reader of an empty pipe sleeps on
`wq_readers` and looks again when it was woken up; a writer without enough room sleeps on
`wq_writers` and writes without looking again.  Every part of a call between two sleeps
holds the lock of the pipe and is one step.

A write wakes `wq_readers` up, where a wait queue has lost all sleepers but the latest.
Nothing ever wakes `wq_writers` up, so a writer that sleeps once sleeps for ever; that also
keeps it from writing past the end of the buffer.

The free space of a pipe is counted in bytes that were written and not read.  The code goes by
`ptr`, which a read of a part of them leaves where it was.

Main results:

- Theorem {lit}`PipeInv.step`: in every state of a run the sleeping readers are those
  that the queue lost or holds, and every writer that went to sleep still sleeps.
- Theorem {lit}`pipe_wakeups_iff`: in a run nobody is left asleep wrongly exactly when no
  read makes room for a writer that sleeps, and no write meets two sleeping readers.
-/

namespace Micael
namespace Fs

open Foundation Lib Kernel Sync

variable {τ : Type} [DecidableEq τ]

/-! ## The tasks of a pipe -/

/-- What a task that has slept in a call asked for. -/
inductive PipeWait where
  | reader (size : Nat) (buffer : Memory)
  | writer (size : Nat) (buffer : Memory)

/-- A pipe, its two wait queues and the tasks that use it.  The list node of a task is in
one queue at a time, so every queue has links of its own here.  No code reads {lit}`unread`: it
counts the bytes that were written and that no read has returned. -/
structure PipeTasks (τ : Type) where
  pipe : Pipe
  unread : Nat
  wqReaders : Links (WqNode τ)
  wqWriters : Links (WqNode τ)
  state : τ → TaskState
  waiting : τ → Option PipeWait

/-- The part of `__write` behind the sleep. -/
def writeResumed (pipe : Pipe) (size : Nat) (buffer : Memory) : Pipe :=
  { pipe with
    mem := kmemcpy pipe.mem pipe.ptr buffer 0 size
    ptr := u64 (pipe.ptr + size) }

/-- `pipe_create`, before any task uses the pipe. -/
def pipeTasksCreate (pipe : Pipe) (links : Links (WqNode τ)) (state : τ → TaskState) :
    PipeTasks τ where
  pipe := pipe
  unread := 0
  wqReaders := listInit links .head
  wqWriters := listInit links .head
  state := state
  waiting := fun _ => none

/-- The steps of a run, with the task that makes them and the size it asked for. -/
inductive PipeEvent (τ : Type) where
  | readDone (t : τ) (size : Nat)
  | readSleeps (t : τ)
  | writeDone (t : τ) (size : Nat)
  | writeSleeps (t : τ) (size : Nat)
  | run (t : τ)

/-- A task can make this attempt to read: it starts a call, or it was woken up in one. -/
def PipeTasks.Reads (s : PipeTasks τ) (t : τ) (size : Nat) (buffer : Memory) : Prop :=
  s.state t = .running ∧ (s.waiting t = none ∨ s.waiting t = some (.reader size buffer))

/-- A task can write now: a new call that finds room, or a call that was woken up. -/
def PipeTasks.Writes (s : PipeTasks τ) (t : τ) (size : Nat) (buffer : Memory) (pipe : Pipe) :
    Prop :=
  s.state t = .running ∧
    ((s.waiting t = none ∧ pipeWrite (some s.pipe) (some buffer) size = .ok (pipe, size)) ∨
      (s.waiting t = some (.writer size buffer) ∧ pipe = writeResumed s.pipe size buffer))

/-- One step. -/
inductive PipeTasksStep : PipeTasks τ → PipeEvent τ → PipeTasks τ → Prop
  | readDone {s : PipeTasks τ} {t : τ} {size nread : Nat} {buffer buffer' : Memory}
      {pipe : Pipe} : s.Reads t size buffer →
      pipeRead (some s.pipe) (some buffer) size = .ok (pipe, buffer', nread) →
      PipeTasksStep s (.readDone t size)
        { s with
          pipe := pipe
          unread := s.unread - nread
          waiting := Function.update s.waiting t none }
  | readSleeps {s : PipeTasks τ} {t : τ} {size : Nat} {buffer : Memory} :
      s.Reads t size buffer →
      pipeRead (some s.pipe) (some buffer) size = .error .sleepReader →
      PipeTasksStep s (.readSleeps t)
        { s with
          wqReaders := (wqWaitEvent ⟨s.wqReaders, s.state⟩ t).links
          state := (wqWaitEvent ⟨s.wqReaders, s.state⟩ t).state
          waiting := Function.update s.waiting t (some (.reader size buffer)) }
  | writeDone {s : PipeTasks τ} {t : τ} {size turns : Nat} {buffer : Memory} {pipe : Pipe}
      {woken : List τ} {wq : WaitQueue τ} : s.Writes t size buffer pipe →
      wqWakeup turns ⟨s.wqReaders, s.state⟩ = some (woken, wq) →
      PipeTasksStep s (.writeDone t size)
        { s with
          pipe := pipe
          unread := s.unread + size
          wqReaders := wq.links
          state := wq.state
          waiting := Function.update s.waiting t none }
  | writeSleeps {s : PipeTasks τ} {t : τ} {size : Nat} {buffer : Memory} :
      s.state t = .running → s.waiting t = none →
      pipeWrite (some s.pipe) (some buffer) size = .error .sleepWriter →
      PipeTasksStep s (.writeSleeps t size)
        { s with
          wqWriters := (wqWaitEvent ⟨s.wqWriters, s.state⟩ t).links
          state := (wqWaitEvent ⟨s.wqWriters, s.state⟩ t).state
          waiting := Function.update s.waiting t (some (.writer size buffer)) }
  | run {s : PipeTasks τ} {t : τ} : s.state t = .ready ∨ s.state t = .unstarted →
      PipeTasksStep s (.run t) { s with state := Function.update s.state t .running }

/-! ## What the wake-ups should do -/

/-- A reader was put on `wq_readers` and has not been woken up. -/
def PipeTasks.ReaderSleeps (s : PipeTasks τ) (t : τ) : Prop :=
  s.state t = .blocked ∧ ∃ size buffer, s.waiting t = some (.reader size buffer)

/-- A writer of {lit}`size` bytes was put on `wq_writers` and has not been woken up. -/
def PipeTasks.WriterSleeps (s : PipeTasks τ) (t : τ) (size : Nat) : Prop :=
  s.state t = .blocked ∧ ∃ buffer, s.waiting t = some (.writer size buffer)

/-- After the step nobody is left asleep who could go on, and the pointer is in the
buffer. -/
def WokenAfter (s : PipeTasks τ) : PipeEvent τ → Prop
  | .readDone _ _ => s.pipe.ptr ≤ s.pipe.size ∧
      ∀ t size, s.WriterSleeps t size → s.pipe.size - s.unread < size
  | .writeDone _ _ => s.pipe.ptr ≤ s.pipe.size ∧ ∀ t, ¬ s.ReaderSleeps t
  | _ => s.pipe.ptr ≤ s.pipe.size

/-- This holds after every step of a run. -/
def PipeWakesAll (start : PipeTasks τ) (events : List (PipeEvent τ)) : Prop :=
  ∀ pre event s s', pre ++ [event] <+: events → Run PipeTasksStep start pre s →
    PipeTasksStep s event s' → WokenAfter s' event

/-- A read finds no sleeping writer for which there is room beside the unread bytes that a read of
this size leaves, and a write finds at most one sleeping reader. -/
def NoneStranded (s : PipeTasks τ) : PipeEvent τ → Prop
  | .readDone _ size =>
      ∀ t wanted, s.WriterSleeps t wanted → s.pipe.size < (s.unread - size) + wanted
  | .writeDone _ _ => ∀ t u, s.ReaderSleeps t → s.ReaderSleeps u → t = u
  | _ => True

/-- This holds of every step of a run. -/
def AllNoneStranded (start : PipeTasks τ) (events : List (PipeEvent τ)) : Prop :=
  ∀ pre event s s', pre ++ [event] <+: events → Run PipeTasksStep start pre s →
    PipeTasksStep s event s' → NoneStranded s event

/-! ## The invariant -/

/-- What holds in every state of a run in which nobody was left asleep wrongly: the readers
that sleep are {lit}`ws`, a writer that went to sleep still does, and the code takes no unread
byte for free space. -/
structure PipeInv (ws : List τ) (s : PipeTasks τ) : Prop where
  readers : HoldsLatest ws ⟨s.wqReaders, s.state⟩
  sleeping : ∀ t, s.ReaderSleeps t ↔ t ∈ ws
  writers : ∀ t size buffer, s.waiting t = some (.writer size buffer) → s.state t = .blocked
  unread_le : s.unread ≤ s.pipe.ptr
  ptr_le : s.pipe.ptr ≤ s.pipe.size
  size_lt : s.pipe.size < 2 ^ 64

variable {ws : List τ} {s s' : PipeTasks τ} {event : PipeEvent τ}

omit [DecidableEq τ] in
/-- A task that runs is not asleep. -/
theorem PipeInv.running_not_mem (hinv : PipeInv ws s) {t : τ} (hstate : s.state t ≠ .blocked) :
    t ∉ ws :=
  fun hmem => hstate (hinv.readers.blocked t hmem)

theorem wqWaitEvent_state (q : WaitQueue τ) (t : τ) :
    (wqWaitEvent q t).state = Function.update q.state t .blocked :=
  schedTaskSetState_blocked _ t

omit [DecidableEq τ] in
/-- The list of a wait queue does not depend on the states of other tasks. -/
theorem holdsLatest_of_blocked {links : Links (WqNode τ)} {state state' : τ → TaskState}
    (h : HoldsLatest ws ⟨links, state⟩) (hblocked : ∀ t ∈ ws, state' t = .blocked) :
    HoldsLatest ws ⟨links, state'⟩ :=
  ⟨h.ring, h.nodup, hblocked⟩

/-- What a completed read leaves of the pipe, and how many bytes it returns. -/
theorem pipeRead_pipe {pipe pipe' : Pipe} {size nread : Nat} {buffer buffer' : Memory}
    (hptr : pipe.ptr < 2 ^ 64)
    (hread : pipeRead (some pipe) (some buffer) size = .ok (pipe', buffer', nread)) :
    pipe'.size = pipe.size ∧ (pipe'.ptr = if pipe.ptr ≤ size then 0 else pipe.ptr) ∧
      nread = min size pipe.ptr := by
  obtain ⟨-, -, hnread, -, hdrained, hpart⟩ := read_step (.read hread)
  by_cases hdrain : pipe.ptr ≤ size
  · rw [if_pos hdrain, hdrained hdrain]
    exact ⟨rfl, rfl, hnread⟩
  · rw [if_neg hdrain, hpart (by omega), u64_eq_of_lt hptr]
    obtain ⟨-, hbody⟩ := guard_eq_ok.mp hread
    obtain ⟨-, hbody⟩ := guard_eq_ok.mp hbody
    rw [if_neg hdrain] at hbody
    obtain ⟨rfl, -⟩ := Prod.mk.inj (Except.ok.inj hbody)
    exact ⟨rfl, rfl, hnread⟩

/-- What a completed write leaves of the pipe. -/
theorem pipeWrite_pipe {pipe pipe' : Pipe} {size n : Nat} {buffer : Memory}
    (hle : pipe.ptr ≤ pipe.size) (hlt : pipe.size < 2 ^ 64)
    (hwrite : pipeWrite (some pipe) (some buffer) size = .ok (pipe', n)) :
    pipe'.size = pipe.size ∧ pipe'.ptr = pipe.ptr + size ∧ pipe.ptr + size ≤ pipe.size := by
  obtain ⟨hroom, rfl⟩ := write_step (.write hwrite)
  have hfree : u64 (pipe.size + 2 ^ 64 - pipe.ptr) = pipe.size - pipe.ptr := by
    unfold u64
    omega
  rw [hfree] at hroom
  exact ⟨rfl, u64_eq_of_lt (by omega), by omega⟩

/-! ## The steps -/

/-- A read that completes. -/
theorem PipeInv.readDone (hinv : PipeInv ws s) {t : τ} {size nread : Nat}
    {buffer buffer' : Memory} {pipe : Pipe} (hreads : s.Reads t size buffer)
    (hread : pipeRead (some s.pipe) (some buffer) size = .ok (pipe, buffer', nread)) :
    PipeInv ws
      { s with
        pipe := pipe
        unread := s.unread - nread
        waiting := Function.update s.waiting t none } := by
  have hrunning := hreads.1
  have hptr : s.pipe.ptr < 2 ^ 64 := lt_of_le_of_lt hinv.ptr_le hinv.size_lt
  obtain ⟨hsize, hafter, hnread⟩ := pipeRead_pipe hptr hread
  constructor
  case readers => exact hinv.readers
  case sleeping =>
    intro u
    by_cases hu : u = t
    · subst hu
      have hout := hinv.running_not_mem (t := u) (by rw [hrunning]; decide)
      simp [PipeTasks.ReaderSleeps, hout]
    · rw [← hinv.sleeping u]
      simp only [PipeTasks.ReaderSleeps, Function.update_of_ne hu]
  case writers =>
    intro u wanted buf hwaiting
    by_cases hu : u = t
    · subst hu
      exact absurd hwaiting (by simp)
    · simp only [Function.update_of_ne hu] at hwaiting
      exact hinv.writers u wanted buf hwaiting
  case unread_le =>
    simp only [hafter]
    have hle := hinv.unread_le
    split
    · omega
    · omega
  case ptr_le =>
    simp only [hsize, hafter]
    have hle := hinv.ptr_le
    split
    · omega
    · exact hle
  case size_lt =>
    simp only [hsize]
    exact hinv.size_lt

/-- A reader that goes to sleep. -/
theorem PipeInv.readSleeps (hinv : PipeInv ws s) {t : τ} {size : Nat} {buffer : Memory}
    (hreads : s.Reads t size buffer) :
    PipeInv (t :: ws)
      { s with
        wqReaders := (wqWaitEvent ⟨s.wqReaders, s.state⟩ t).links
        state := (wqWaitEvent ⟨s.wqReaders, s.state⟩ t).state
        waiting := Function.update s.waiting t (some (.reader size buffer)) } := by
  constructor
  case readers => exact hinv.readers.waitEvent hreads.1
  case sleeping =>
    intro u
    simp only [PipeTasks.ReaderSleeps, wqWaitEvent_state, List.mem_cons, ← hinv.sleeping]
    by_cases hu : u = t
    · subst hu
      simp
    · simp only [Function.update_of_ne hu, hu, false_or]
  case writers =>
    intro u wanted buf hwaiting
    by_cases hu : u = t
    · subst hu
      exact absurd hwaiting (by simp)
    · simp only [Function.update_of_ne hu] at hwaiting
      simp only [wqWaitEvent_state, Function.update_of_ne hu]
      exact hinv.writers u wanted buf hwaiting
  case unread_le => exact hinv.unread_le
  case ptr_le => exact hinv.ptr_le
  case size_lt => exact hinv.size_lt

/-- A write wakes up the latest of the readers that sleep. -/
theorem PipeInv.wakeup (hinv : PipeInv ws s) {turns : Nat} {woken : List τ} {wq : WaitQueue τ}
    (hwake : wqWakeup turns ⟨s.wqReaders, s.state⟩ = some (woken, wq)) :
    ListRing wq.links .head [] ∧ ∀ t, wq.state t = if t ∈ ws.take 1 then .ready else s.state t := by
  obtain ⟨wq', hmany, hring, hstate⟩ := hinv.readers.wakeup
  obtain ⟨-, rfl⟩ := Prod.mk.inj (wqWakeup_two hmany hwake)
  exact ⟨hring, hstate⟩

omit [DecidableEq τ] in
/-- At most one reader sleeps. -/
theorem PipeInv.take_one (hinv : PipeInv ws s)
    (hnone : ∀ t u, s.ReaderSleeps t → s.ReaderSleeps u → t = u) : ws.take 1 = ws := by
  cases ws with
  | nil => rfl
  | cons t ws =>
      cases ws with
      | nil => rfl
      | cons u ws =>
          have htu := hnone t u ((hinv.sleeping t).mpr (by simp)) ((hinv.sleeping u).mpr (by simp))
          exact absurd htu (List.ne_of_not_mem_cons (List.nodup_cons.mp hinv.readers.nodup).1)

omit [DecidableEq τ] in
/-- A writer that was put to sleep is never woken up, so a write has found room. -/
theorem PipeInv.writes (hinv : PipeInv ws s) {t : τ} {size : Nat} {buffer : Memory} {pipe : Pipe}
    (hwrites : s.Writes t size buffer pipe) :
    pipe.size = s.pipe.size ∧ pipe.ptr = s.pipe.ptr + size ∧ s.pipe.ptr + size ≤ s.pipe.size := by
  obtain ⟨hrunning, ⟨-, hwrite⟩ | ⟨hwaiting, -⟩⟩ := hwrites
  · exact pipeWrite_pipe hinv.ptr_le hinv.size_lt hwrite
  · rw [hinv.writers t size buffer hwaiting] at hrunning
    exact absurd hrunning (by decide)

/-- A write that completes. -/
theorem PipeInv.writeDone (hinv : PipeInv ws s) {t : τ} {size turns : Nat} {buffer : Memory}
    {pipe : Pipe} {woken : List τ} {wq : WaitQueue τ} (hwrites : s.Writes t size buffer pipe)
    (hwake : wqWakeup turns ⟨s.wqReaders, s.state⟩ = some (woken, wq))
    (hnone : NoneStranded s (.writeDone t size)) :
    PipeInv []
      { s with
        pipe := pipe
        unread := s.unread + size
        wqReaders := wq.links
        state := wq.state
        waiting := Function.update s.waiting t none } := by
  obtain ⟨hring, hstate⟩ := hinv.wakeup hwake
  rw [hinv.take_one hnone] at hstate
  obtain ⟨hsize, hptr, hfits⟩ := hinv.writes hwrites
  constructor
  case readers => exact ⟨hring, List.nodup_nil, by simp⟩
  case sleeping =>
    intro u
    simp only [List.not_mem_nil, iff_false]
    rintro ⟨hblocked, sz, buf, hwaiting⟩
    by_cases hu : u = t
    · subst hu
      exact absurd hwaiting (by simp)
    · simp only [Function.update_of_ne hu] at hwaiting
      simp only [hstate] at hblocked
      by_cases hmem : u ∈ ws
      · rw [if_pos hmem] at hblocked
        exact absurd hblocked (by decide)
      · rw [if_neg hmem] at hblocked
        exact hmem ((hinv.sleeping u).mp ⟨hblocked, sz, buf, hwaiting⟩)
  case writers =>
    intro u wanted buf hwaiting
    by_cases hu : u = t
    · subst hu
      exact absurd hwaiting (by simp)
    · simp only [Function.update_of_ne hu] at hwaiting
      have hblocked := hinv.writers u wanted buf hwaiting
      have hout : u ∉ ws := by
        intro hmem
        obtain ⟨-, sz, buf', hreader⟩ := (hinv.sleeping u).mpr hmem
        rw [hwaiting] at hreader
        exact absurd hreader (by simp)
      simp only [hstate, if_neg hout]
      exact hblocked
  case unread_le =>
    simp only [hptr]
    have hle := hinv.unread_le
    omega
  case ptr_le =>
    simp only [hsize, hptr]
    exact hfits
  case size_lt =>
    simp only [hsize]
    exact hinv.size_lt

/-- A writer that goes to sleep. -/
theorem PipeInv.writeSleeps (hinv : PipeInv ws s) {t : τ} {size : Nat} {buffer : Memory}
    (hrunning : s.state t = .running) :
    PipeInv ws
      { s with
        wqWriters := (wqWaitEvent ⟨s.wqWriters, s.state⟩ t).links
        state := (wqWaitEvent ⟨s.wqWriters, s.state⟩ t).state
        waiting := Function.update s.waiting t (some (.writer size buffer)) } := by
  have hout : t ∉ ws := hinv.running_not_mem (by rw [hrunning]; decide)
  constructor
  case readers =>
    apply holdsLatest_of_blocked hinv.readers
    intro u hu
    simp only [wqWaitEvent_state]
    rw [Function.update_of_ne (fun h : u = t => hout (h ▸ hu))]
    exact hinv.readers.blocked u hu
  case sleeping =>
    intro u
    rw [← hinv.sleeping u]
    simp only [PipeTasks.ReaderSleeps, wqWaitEvent_state]
    by_cases hu : u = t
    · subst hu
      simp [hrunning]
    · simp only [Function.update_of_ne hu]
  case writers =>
    intro u wanted buf hwaiting
    simp only [wqWaitEvent_state]
    by_cases hu : u = t
    · subst hu
      exact Function.update_self _ _ _
    · simp only [Function.update_of_ne hu] at hwaiting ⊢
      exact hinv.writers u wanted buf hwaiting
  case unread_le => exact hinv.unread_le
  case ptr_le => exact hinv.ptr_le
  case size_lt => exact hinv.size_lt

/-- A task that was woken up, or has nothing to do with the pipe, is scheduled. -/
theorem PipeInv.run (hinv : PipeInv ws s) {t : τ}
    (hready : s.state t = .ready ∨ s.state t = .unstarted) :
    PipeInv ws { s with state := Function.update s.state t .running } := by
  have hnot : s.state t ≠ .blocked := by
    rcases hready with h | h <;> rw [h] <;> decide
  have hout : t ∉ ws := hinv.running_not_mem hnot
  constructor
  case readers =>
    apply holdsLatest_of_blocked hinv.readers
    intro u hu
    have hne : u ≠ t := fun h => hout (h ▸ hu)
    exact (Function.update_of_ne hne ..).trans (hinv.readers.blocked u hu)
  case sleeping =>
    intro u
    rw [← hinv.sleeping u]
    simp only [PipeTasks.ReaderSleeps]
    by_cases hu : u = t
    · subst hu
      simp [hnot]
    · simp only [Function.update_of_ne hu]
  case writers =>
    intro u wanted buf hwaiting
    have hblocked := hinv.writers u wanted buf hwaiting
    have hu : u ≠ t := fun h => hnot (h ▸ hblocked)
    simp only [Function.update_of_ne hu]
    exact hblocked
  case unread_le => exact hinv.unread_le
  case ptr_le => exact hinv.ptr_le
  case size_lt => exact hinv.size_lt

/-- A step that leaves nobody asleep wrongly keeps the invariant. -/
theorem PipeInv.step (hinv : PipeInv ws s) (hstep : PipeTasksStep s event s')
    (hnone : NoneStranded s event) : ∃ ws', PipeInv ws' s' := by
  cases hstep with
  | readDone hreads hread => exact ⟨ws, hinv.readDone hreads hread⟩
  | readSleeps hreads _ => exact ⟨_ :: ws, hinv.readSleeps hreads⟩
  | writeDone hwrites hwake => exact ⟨[], hinv.writeDone hwrites hwake hnone⟩
  | writeSleeps hrunning _ _ => exact ⟨ws, hinv.writeSleeps hrunning⟩
  | run hready => exact ⟨ws, hinv.run hready⟩

/-- A writer that sleeps after a read slept before it. -/
theorem writerSleeps_of_readDone {t u : τ} {wanted unread : Nat} {pipe : Pipe}
    (hsleeps : PipeTasks.WriterSleeps
      { s with
        pipe := pipe
        unread := unread
        waiting := Function.update s.waiting t none } u wanted) : s.WriterSleeps u wanted := by
  obtain ⟨hblocked, buffer, hwaiting⟩ := hsleeps
  have hu : u ≠ t := by
    rintro rfl
    simp at hwaiting
  exact ⟨hblocked, buffer, by simpa only [Function.update_of_ne hu] using hwaiting⟩

/-- After such a step nobody who could go on sleeps. -/
theorem PipeInv.wokenAfter (hinv : PipeInv ws s) (hstep : PipeTasksStep s event s')
    (hnone : NoneStranded s event) : WokenAfter s' event := by
  cases hstep with
  | @readDone t size nread buffer buffer' pipe hreads hread =>
      refine ⟨(hinv.readDone hreads hread).ptr_le, fun u wanted hsleeps => ?_⟩
      have hptr : s.pipe.ptr < 2 ^ 64 := lt_of_le_of_lt hinv.ptr_le hinv.size_lt
      obtain ⟨hsize, -, rfl⟩ := pipeRead_pipe hptr hread
      have hroom := hnone u wanted (writerSleeps_of_readDone hsleeps)
      have hle := hinv.unread_le
      have hfits := hinv.ptr_le
      simp only [hsize]
      omega
  | readSleeps hreads _ => exact hinv.ptr_le
  | writeDone hwrites hwake =>
      have hnext := hinv.writeDone hwrites hwake hnone
      exact ⟨hnext.ptr_le, fun u hsleeps => by simpa using (hnext.sleeping u).mp hsleeps⟩
  | writeSleeps hrunning _ hwrite => exact hinv.ptr_le
  | run hready => exact hinv.ptr_le

/-- A step after which nobody sleeps wrongly has met no one that it strands: the read does not
touch the writers that sleep, and the write wakes up one reader. -/
theorem PipeInv.noneStranded (hinv : PipeInv ws s) (hstep : PipeTasksStep s event s')
    (hwoken : WokenAfter s' event) : NoneStranded s event := by
  cases hstep with
  | @readDone t size nread buffer buffer' pipe hreads hread =>
      intro u wanted hsleeps
      have hptr : s.pipe.ptr < 2 ^ 64 := lt_of_le_of_lt hinv.ptr_le hinv.size_lt
      obtain ⟨hsize, -, rfl⟩ := pipeRead_pipe hptr hread
      have hu : u ≠ t := by
        rintro rfl
        exact absurd (hreads.1.symm.trans hsleeps.1) (by decide)
      have hroom := hwoken.2 u wanted
      simp only [PipeTasks.WriterSleeps, Function.update_of_ne hu, hsize] at hroom
      have hlt := hroom hsleeps
      have hle := hinv.unread_le
      omega
  | readSleeps hreads _ => trivial
  | @writeDone t size turns buffer pipe woken wq hwrites hwake =>
      obtain ⟨-, hstate⟩ := hinv.wakeup hwake
      -- A reader that was not woken up sleeps on after the write.
      have hlatest : ∀ u, s.ReaderSleeps u → u ∈ ws.take 1 := by
        intro u hsleeps
        by_contra hout
        have hu : u ≠ t := by
          rintro rfl
          exact absurd (hwrites.1.symm.trans hsleeps.1) (by decide)
        apply hwoken.2 u
        simp only [PipeTasks.ReaderSleeps, Function.update_of_ne hu, hstate, if_neg hout]
        exact hsleeps
      intro u v hu hv
      cases ws with
      | nil => exact absurd (hlatest u hu) (by simp)
      | cons w ws =>
          have huw : u = w := by simpa using hlatest u hu
          have hvw : v = w := by simpa using hlatest v hv
          rw [huw, hvw]
  | writeSleeps hrunning _ hwrite => trivial
  | run hready => trivial

/-! ## Runs -/

/-- At first nobody sleeps. -/
theorem pipeTasksCreate_inv {mem : Memory} {size : Nat} {pipe : Pipe}
    (links : Links (WqNode τ)) (state : τ → TaskState) (hsize : size < 2 ^ 64)
    (hcreate : pipeCreate mem size = .ok pipe) : PipeInv [] (pipeTasksCreate pipe links state) := by
  have hpipe := pipeCreate_inSync hsize hcreate
  constructor
  case readers => exact ⟨ListRing.init links .head, List.nodup_nil, by simp⟩
  case sleeping => simp [PipeTasks.ReaderSleeps, pipeTasksCreate]
  case writers => simp [pipeTasksCreate]
  case unread_le => exact Nat.zero_le _
  case ptr_le => exact hpipe.ptr_le
  case size_lt => exact hpipe.size_lt

/-- The invariant holds at the end of a run whose steps strand nobody.  The condition
{lit}`good` may speak of the state before a step or of the one after it. -/
theorem PipeInv.of_run (good : PipeTasks τ → PipeEvent τ → PipeTasks τ → Prop)
    (hgood : ∀ ws s event s', PipeInv ws s → PipeTasksStep s event s' → good s event s' →
      NoneStranded s event)
    {start : PipeTasks τ} {events : List (PipeEvent τ)} (hstart : PipeInv [] start)
    (hrun : Run PipeTasksStep start events s)
    (hall : ∀ pre event t t', pre ++ [event] <+: events → Run PipeTasksStep start pre t →
      PipeTasksStep t event t' → good t event t') : ∃ ws, PipeInv ws s := by
  have hkeep : ∀ s event s', (∃ ws, PipeInv ws s) → PipeTasksStep s event s' →
      (∀ t', PipeTasksStep s event t' → good s event t') → ∃ ws, PipeInv ws s' := by
    intro s event s' ⟨ws, hinv⟩ hstep hgoods
    exact hinv.step hstep (hgood ws s event s' hinv hstep (hgoods s' hstep))
  apply Run.inv_of_good hkeep ⟨[], hstart⟩ hrun
  intro pre event t _ hpre hbefore _ t' hstep
  exact hall pre event t t' hpre hbefore hstep

/-- In the runs of any number of readers and writers over one pipe, exactly those leave nobody
asleep wrongly in which no read leaves room for a writer that sleeps, and no write completes while
two readers sleep. -/
theorem pipe_wakeups_iff {mem : Memory} {size : Nat} {pipe : Pipe} (links : Links (WqNode τ))
    (state : τ → TaskState) (events : List (PipeEvent τ)) (hsize : size < 2 ^ 64)
    (hcreate : pipeCreate mem size = .ok pipe) :
    PipeWakesAll (pipeTasksCreate pipe links state) events ↔
      AllNoneStranded (pipeTasksCreate pipe links state) events := by
  have hstart := pipeTasksCreate_inv links state hsize hcreate
  have hshorter : ∀ {pre p : List (PipeEvent τ)} {event e : PipeEvent τ},
      pre ++ [event] <+: events → p ++ [e] <+: pre → p ++ [e] <+: events :=
    fun hpre hp => (hp.trans (List.prefix_append _ _)).trans hpre
  constructor
  · intro hwakes pre event s s' hpre hrun hstep
    obtain ⟨ws, hinv⟩ := PipeInv.of_run (fun _ event t' => WokenAfter t' event)
      (fun ws s event s' hinv hstep hwoken => hinv.noneStranded hstep hwoken) hstart hrun
      (fun p e t t' hp => hwakes p e t t' (hshorter hpre hp))
    exact hinv.noneStranded hstep (hwakes pre event s s' hpre hrun hstep)
  · intro hall pre event s s' hpre hrun hstep
    obtain ⟨ws, hinv⟩ := PipeInv.of_run (fun t event _ => NoneStranded t event)
      (fun ws s event s' hinv hstep hnone => hnone) hstart hrun
      (fun p e t t' hp => hall p e t t' (hshorter hpre hp))
    exact hinv.wokenAfter hstep (hall pre event s s' hpre hrun hstep)

/-! ## A reader that is woken up, and a writer that is not -/

/-- The wakeup of a write returns. -/
theorem PipeInv.wakeup_returns (hinv : PipeInv ws s) :
    ∃ woken wq, wqWakeup 2 ⟨s.wqReaders, s.state⟩ = some (woken, wq) := by
  obtain ⟨wq, hmany, -, -⟩ := hinv.readers.wakeup
  exact ⟨ws.take 1, wq, hmany 2 le_rfl⟩

/-- A pipe of one byte. -/
def oneByte (ptr : Nat) : Pipe := ⟨zeros, 1, ptr⟩

/-- Two running tasks and an empty pipe of one byte. -/
def oneByteTasks : PipeTasks Bool :=
  pipeTasksCreate (oneByte 0) (fun _ => ⟨none, none⟩) fun _ => .running

theorem oneByteTasks_inv : PipeInv [] oneByteTasks :=
  pipeTasksCreate_inv _ _ (show 1 < 2 ^ 64 by norm_num) (show pipeCreate zeros 1 = _ from rfl)

theorem oneByte_write : pipeWrite (some (oneByte 0)) (some zeros) 1 = .ok (oneByte 1, 1) := by
  simp [pipeWrite, write, oneByte, kmemcpy_zeros, u64]

theorem oneByte_full : pipeWrite (some (oneByte 1)) (some zeros) 1 = .error .sleepWriter := by
  simp [pipeWrite, write, oneByte, u64]

theorem oneByte_read : pipeRead (some (oneByte 1)) (some zeros) 1 = .ok (oneByte 0, zeros, 1) := by
  simp [pipeRead, read, oneByte, kmemcpy_zeros]

/-- The first task has found the pipe empty. -/
def oneByteReader : PipeTasks Bool :=
  { oneByteTasks with
    wqReaders := (wqWaitEvent ⟨oneByteTasks.wqReaders, oneByteTasks.state⟩ false).links
    state := (wqWaitEvent ⟨oneByteTasks.wqReaders, oneByteTasks.state⟩ false).state
    waiting := Function.update oneByteTasks.waiting false (some (.reader 1 zeros)) }

theorem oneByteTasks_readSleeps : PipeTasksStep oneByteTasks (.readSleeps false) oneByteReader :=
  .readSleeps ⟨rfl, .inl rfl⟩ rfl

theorem oneByteTasks_noneStranded :
    AllNoneStranded oneByteTasks [.readSleeps false, .writeDone true 1] := by
  intro pre event s s' hpre hrun hstep
  cases event with
  | writeDone t size =>
      rcases concat_prefix_pair hpre with ⟨rfl, -⟩ | ⟨-, hfirst⟩
      · cases hrun.of_singleton with
        | readSleeps hreads _ =>
            have hinv := oneByteTasks_inv.readSleeps hreads
            intro u v hu hv
            have hu' := List.mem_singleton.mp ((hinv.sleeping u).mp hu)
            exact hu'.trans (List.mem_singleton.mp ((hinv.sleeping v).mp hv)).symm
      · cases hfirst
  | readDone t size =>
      have hmem := hpre.subset (List.mem_append_right pre (List.mem_singleton.mpr rfl))
      exact absurd hmem (by simp)
  | readSleeps t => trivial
  | writeSleeps t size => trivial
  | run t => trivial

/-- A reader of the empty pipe is woken up by the write of a byte. -/
theorem reader_woken :
    (∃ s, Run PipeTasksStep oneByteTasks [.readSleeps false, .writeDone true 1] s) ∧
      PipeWakesAll oneByteTasks [.readSleeps false, .writeDone true 1] := by
  have hreads : oneByteTasks.Reads false 1 zeros := ⟨rfl, .inl rfl⟩
  have hinv : PipeInv [false] oneByteReader := oneByteTasks_inv.readSleeps hreads
  obtain ⟨woken, wq, hwake⟩ := hinv.wakeup_returns
  have hrunning : oneByteReader.state true = .running := by
    simp only [oneByteReader, wqWaitEvent_state]
    rfl
  have hwrites : oneByteReader.Writes true 1 zeros (oneByte 1) :=
    ⟨hrunning, .inl ⟨rfl, oneByte_write⟩⟩
  refine ⟨⟨_, .snoc (.snoc .nil oneByteTasks_readSleeps) (.writeDone hwrites hwake)⟩, ?_⟩
  exact (pipe_wakeups_iff _ _ _ (show 1 < 2 ^ 64 by norm_num)
    (show pipeCreate zeros 1 = _ from rfl)).mpr oneByteTasks_noneStranded

/-- The first task has filled the pipe. -/
def oneByteFull (wq : WaitQueue Bool) : PipeTasks Bool :=
  { oneByteTasks with
    pipe := oneByte 1
    unread := 1
    wqReaders := wq.links
    state := wq.state
    waiting := Function.update oneByteTasks.waiting false none }

/-- The second task waits for room. -/
def oneByteWriter (wq : WaitQueue Bool) : PipeTasks Bool :=
  { oneByteFull wq with
    wqWriters := (wqWaitEvent ⟨oneByteTasks.wqWriters, wq.state⟩ true).links
    state := (wqWaitEvent ⟨oneByteTasks.wqWriters, wq.state⟩ true).state
    waiting := Function.update (oneByteFull wq).waiting true (some (.writer 1 zeros)) }

theorem oneByteWriter_state (wq : WaitQueue Bool) (hrunning : ∀ t, wq.state t = .running) (t : Bool) :
    (oneByteWriter wq).state t = if t = true then .blocked else .running := by
  simp only [oneByteWriter, wqWaitEvent_state, Function.update_apply, hrunning]

/-- A task fills the pipe, another one waits for room, and the first reads the byte back: the
pipe is empty and the writer of one byte sleeps. -/
theorem writer_not_woken :
    ¬ PipeWakesAll oneByteTasks
      [.writeDone false 1, .writeSleeps true 1, .readDone false 1] := by
  intro hwakes
  obtain ⟨woken, wq, hwake⟩ := oneByteTasks_inv.wakeup_returns
  obtain ⟨-, hstate⟩ := oneByteTasks_inv.wakeup hwake
  have hrunning : ∀ t, wq.state t = .running := by
    intro t
    rw [hstate t]
    rfl
  have hfull : PipeTasksStep oneByteTasks (.writeDone false 1) (oneByteFull wq) :=
    .writeDone ⟨rfl, .inl ⟨rfl, oneByte_write⟩⟩ hwake
  have hsleeps : PipeTasksStep (oneByteFull wq) (.writeSleeps true 1) (oneByteWriter wq) :=
    .writeSleeps (hrunning true) rfl oneByte_full
  have hreads : (oneByteWriter wq).Reads false 1 zeros :=
    ⟨oneByteWriter_state wq hrunning false, .inl rfl⟩
  have hrun := Run.snoc (.snoc .nil hfull) hsleeps
  obtain ⟨-, hroom⟩ := hwakes _ _ _ _ List.prefix_rfl hrun (.readDone hreads oneByte_read)
  have hwriter := hroom true 1 ⟨oneByteWriter_state wq hrunning true, zeros, rfl⟩
  exact absurd hwriter (show ¬ 1 - 0 < 1 by decide)

end Fs
end Micael
