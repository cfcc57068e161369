import Micael.Foundation.Circular
import Micael.Kernel.Machine

/-!
# The sampler

A sampler keeps classes of samples, each with a ring buffer of the last samples and their total.  After every
window of samples a class hands its mean on to the next class.  `__add_sample` decides this by the number of
samples of the lowest class, whichever class it is at, so that a sample that leaves the lowest class is
followed by one for every class above it.

`s_ptr` counts the samples of a class and wraps at `2^64`.  The total of a full window wraps when the
window is longer than about `2^56`.  Pointers are not null, and the allocations of `ssmplr_init` either all
succeed or fail.

Main results:

- Theorem {lit}`addSample_spec`: a call gives a sample to the lowest class only, or to all classes.
- Theorem {lit}`sampler_cascade_iff`: for which windows, numbers of classes and numbers of calls every class
  gets the means of the windows of the class below it.
-/

namespace Micael
namespace Lib

/-! ## Samplers -/

/-- `sample_t`: one class. -/
structure Sample where
  sPtr : UInt64
  wTotal : UInt64
  data : Nat → UInt8

/-- `ssampler_t`; a sample is a byte. -/
structure Ssampler where
  wSize : UInt64
  nclasses : Nat
  samples : Nat → Sample

/-- `ssmplr_init`; the buffers hold what was there before. -/
def ssmplrInit (wSize : UInt64) (nclasses : Nat) (served : Bool) (garbage : Nat → Nat → UInt8) :
    Except Errno Ssampler :=
  if wSize = 0 ∨ nclasses < 1 then .error .einval
  else if served = false then .error .enomem
  else .ok
    { wSize := wSize
      nclasses := nclasses
      samples := fun c => { sPtr := 0, wTotal := 0, data := garbage c } }

/-- The part of `__add_sample` that puts a sample into a class with windows of size `w`. -/
def Sample.put (w : UInt64) (c : Sample) (sample : UInt8) : Sample :=
  let index := if c.sPtr ≥ w then c.sPtr % w else c.sPtr
  let total := if c.sPtr ≥ w then c.wTotal - (c.data index.toNat).toUInt64 else c.wTotal
  { sPtr := c.sPtr + 1
    wTotal := total + sample.toUInt64
    data := Function.update c.data index.toNat sample }

/-- The mean of a class, as the next class gets it. -/
def Sample.mean (w : UInt64) (c : Sample) : UInt8 := (c.wTotal / w).toUInt8

/-- The sampler with another state of a class. -/
def Ssampler.setClass (ss : Ssampler) (cls : Nat) (c : Sample) : Ssampler :=
  { ss with samples := Function.update ss.samples cls c }

@[simp]
theorem Ssampler.setClass_self (ss : Ssampler) (cls : Nat) (c : Sample) :
    (ss.setClass cls c).samples cls = c := by
  simp [Ssampler.setClass]

@[simp]
theorem Ssampler.setClass_wSize (ss : Ssampler) (cls : Nat) (c : Sample) :
    (ss.setClass cls c).wSize = ss.wSize :=
  rfl

theorem Ssampler.setClass_of_ne (ss : Ssampler) {cls d : Nat} (c : Sample) (h : d ≠ cls) :
    (ss.setClass cls c).samples d = ss.samples d := by
  simp [Ssampler.setClass, h]

/-- `__add_sample` with the number of classes from `cls` on: the sampler, and the samples that classes
received, in order. -/
def addSample (ss : Ssampler) (sample : UInt8) (cls : Nat) : Nat → Ssampler × List (Nat × UInt8)
  | 0 => (ss, [])
  | left + 1 =>
      let c := (ss.samples cls).put ss.wSize sample
      let ss := ss.setClass cls c
      if (ss.samples 0).sPtr % ss.wSize = 0 then
        let r := addSample ss (c.mean ss.wSize) (cls + 1) left
        (r.1, (cls, sample) :: r.2)
      else (ss, [(cls, sample)])

/-- `ssmplr_add_sample`. -/
def ssmplrAddSample (ss : Ssampler) (sample : UInt8) : Ssampler × List (Nat × UInt8) :=
  addSample ss sample 0 ss.nclasses

/-- The sampler after calls of `ssmplr_add_sample`, and the samples that classes received. -/
def addSamples (ss : Ssampler) (xs : List UInt8) : Ssampler × List (Nat × UInt8) :=
  xs.foldl (fun s x => let r := ssmplrAddSample s.1 x; (r.1, s.2 ++ r.2)) (ss, [])

/-! ## What is promised -/

/-- The samples of a class, in the order in which it received them. -/
def received (log : List (Nat × UInt8)) (c : Nat) : List UInt8 :=
  (log.filter fun e => e.1 = c).map Prod.snd

/-- The sum of samples. -/
def sampleSum (xs : List UInt8) : Nat := (xs.map UInt8.toNat).sum

/-- The mean of the last `w` samples, rounded down. -/
def lastMean (w : Nat) (xs : List UInt8) : UInt8 := UInt8.ofNat (sampleSum (xs.drop (xs.length - w)) / w)

/-- The means of windows of `w` samples, each taken when the number of samples becomes a multiple
of `w`. -/
def windowMeans (w : Nat) (xs : List UInt8) : List UInt8 :=
  (List.range (xs.length / w)).map fun j => lastMean w (xs.take ((j + 1) * w))

/-- After every call, each class has received the means of the windows of the class below it, and class `c`
has received a sample for every `w ^ c` calls. -/
structure CascadeRight (ss : Ssampler) (xs : List UInt8) : Prop where
  promoted : ∀ pre, pre <+: xs → ∀ c, c + 1 < ss.nclasses →
    received (addSamples ss pre).2 (c + 1) =
      windowMeans ss.wSize.toNat (received (addSamples ss pre).2 c)
  counts : ∀ pre, pre <+: xs → ∀ c < ss.nclasses,
    (received (addSamples ss pre).2 c).length = pre.length / ss.wSize.toNat ^ c

/-- There is one class, or no window is full, or there are no more than two classes or windows of one sample,
and neither the total of a window nor, before it matters, the number of samples wraps. -/
def CascadeFits (w k n : Nat) : Prop :=
  k = 1 ∨ n < w ∨
    (k = 2 ∨ w = 1) ∧ 255 * w < 2 ^ 64 ∧ (n < 2 ^ 64 ∨ w ∣ 2 ^ 64 ∧ n < 2 ^ 64 + w)

/-! ## Windows -/

section Windows

variable {w : Nat} {xs ys : List UInt8} {x : UInt8}

@[simp]
theorem sampleSum_append : sampleSum (xs ++ ys) = sampleSum xs + sampleSum ys := by
  simp [sampleSum]

@[simp]
theorem sampleSum_singleton : sampleSum [x] = x.toNat := by
  simp [sampleSum]

@[simp]
theorem length_windowMeans : (windowMeans w xs).length = xs.length / w := by
  simp [windowMeans]

/-- One more sample: a window more, if it is full. -/
theorem map_windows_concat (f : List UInt8 → UInt8) (hw : 0 < w) :
    ((List.range ((ys ++ [x]).length / w)).map fun j => f ((ys ++ [x]).take ((j + 1) * w))) =
      (List.range (ys.length / w)).map (fun j => f (ys.take ((j + 1) * w))) ++
        if w ∣ ys.length + 1 then [f (ys ++ [x])] else [] := by
  have hbefore : ∀ j ∈ List.range (ys.length / w),
      f ((ys ++ [x]).take ((j + 1) * w)) = f (ys.take ((j + 1) * w)) := by
    intro j hj
    have hle : (j + 1) * w ≤ ys.length :=
      (Nat.le_div_iff_mul_le hw).mp (List.mem_range.mp hj)
    rw [List.take_append_of_le_length hle]
  rw [List.length_append, List.length_singleton, Nat.succ_div]
  by_cases hdvd : w ∣ ys.length + 1
  · have hdiv : ys.length / w + 1 = (ys.length + 1) / w := by rw [Nat.succ_div, if_pos hdvd]
    have hall : (ys.length / w + 1) * w = (ys ++ [x]).length := by
      rw [hdiv, Nat.div_mul_cancel hdvd, List.length_append, List.length_singleton]
    rw [if_pos hdvd, if_pos hdvd, List.range_succ, List.map_append, List.map_singleton, hall,
      List.take_length, List.map_congr_left hbefore]
  · rw [if_neg hdvd, if_neg hdvd, Nat.add_zero, List.map_congr_left hbefore, List.append_nil]

/-- One more sample. -/
theorem windowMeans_concat (hw : 0 < w) :
    windowMeans w (ys ++ [x]) =
      if w ∣ ys.length + 1 then windowMeans w ys ++ [lastMean w (ys ++ [x])] else windowMeans w ys := by
  rw [windowMeans, map_windows_concat (lastMean w) hw, ← windowMeans]
  split_ifs
  · rfl
  · rw [List.append_nil]

end Windows

/-! ## One class -/

/-- A class that received these samples, while its counter has not wrapped. -/
structure Sample.Holds (w : Nat) (c : Sample) (ys : List UInt8) : Prop where
  ptr : c.sPtr = UInt64.ofNat ys.length
  total : c.wTotal = UInt64.ofNat (sampleSum (ys.drop (ys.length - w)))
  data : ∀ i < ys.length, ys.length ≤ i + w → ys[i]? = some (c.data (i % w))

section Class

variable {w : UInt64} {c : Sample} {ys : List UInt8} {x : UInt8}

/-- The index of the new sample, and the total without the sample that it replaces. -/
theorem Sample.put_eq (w : UInt64) (c : Sample) (x : UInt8) :
    c.put w x =
      { sPtr := c.sPtr + 1
        wTotal := (if c.sPtr ≥ w then
          c.wTotal - (c.data (c.sPtr.toNat % w.toNat)).toUInt64 else c.wTotal) + x.toUInt64
        data := Function.update c.data (c.sPtr.toNat % w.toNat) x } := by
  by_cases hfull : c.sPtr ≥ w
  · simp only [Sample.put, if_pos hfull, UInt64.toNat_mod]
  · have hlt : c.sPtr.toNat < w.toNat := by
      rw [ge_iff_le, UInt64.le_iff_toNat_le] at hfull
      omega
    simp only [Sample.put, if_neg hfull, Nat.mod_eq_of_lt hlt]

/-- The oldest sample of a full window is the one that the next sample replaces. -/
theorem Sample.Holds.oldest {n : Nat} (h : c.Holds n ys) (hpos : 0 < n) (hfull : n ≤ ys.length) :
    ys.drop (ys.length - n) = c.data (ys.length % n) :: ys.drop (ys.length + 1 - n) := by
  obtain ⟨d, hd⟩ := Nat.exists_eq_add_of_le hfull
  have hold : ys[d]? = some (c.data (ys.length % n)) := by
    rw [h.data d (by omega) (by omega), hd, Nat.add_mod_left]
  obtain ⟨hlt, hget⟩ := List.getElem?_eq_some_iff.mp hold
  have hfirst : ys.length - n = d := by omega
  have hnext : ys.length + 1 - n = d + 1 := by omega
  rw [hfirst, hnext, ← hget]
  exact List.drop_eq_getElem_cons hlt

/-- A class takes a sample. -/
theorem Sample.Holds.put (h : c.Holds w.toNat ys) (hw : 0 < w.toNat) (hlen : ys.length < 2 ^ 64) :
    (c.put w x).Holds w.toNat (ys ++ [x]) := by
  have hptr : c.sPtr.toNat = ys.length := by rw [h.ptr, UInt64.toNat_ofNat_of_lt' hlen]
  have hfull : c.sPtr ≥ w ↔ w.toNat ≤ ys.length := by rw [ge_iff_le, UInt64.le_iff_toNat_le, hptr]
  rw [Sample.put_eq, hptr]
  constructor
  case ptr => simp [h.ptr]
  case total =>
    rw [List.length_append, List.length_singleton, h.total]
    by_cases hle : w.toNat ≤ ys.length
    · -- the oldest sample of the window leaves the total
      have hsum : UInt64.ofNat (sampleSum (ys.drop (ys.length - w.toNat))) -
          (c.data (ys.length % w.toNat)).toUInt64 =
            UInt64.ofNat (sampleSum (ys.drop (ys.length + 1 - w.toNat))) := by
        rw [h.oldest hw hle, ← List.singleton_append, sampleSum_append, sampleSum_singleton, UInt64.ofNat_add,
          UInt64.ofNat_uInt8ToNat, UInt64.add_comm, UInt64.add_sub_cancel]
      rw [if_pos (hfull.mpr hle), hsum, List.drop_append_of_le_length (by omega), sampleSum_append,
        sampleSum_singleton, UInt64.ofNat_add, UInt64.ofNat_uInt8ToNat]
    · rw [if_neg fun hge => hle (hfull.mp hge), List.drop_append_of_le_length (by omega),
        show ys.length - w.toNat = 0 by omega, show ys.length + 1 - w.toNat = 0 by omega,
        sampleSum_append, sampleSum_singleton, UInt64.ofNat_add, UInt64.ofNat_uInt8ToNat]
  case data =>
    intro i hi hwin
    rw [List.length_append, List.length_singleton] at hi hwin
    change (ys ++ [x])[i]? = some (Function.update c.data (ys.length % w.toNat) x (i % w.toNat))
    by_cases hlast : i = ys.length
    · rw [hlast, Function.update_self, List.getElem?_concat_length]
    · have hother : i % w.toNat ≠ ys.length % w.toNat :=
        Foundation.Circular.mod_ne_of_lt (by omega) (by omega)
      rw [Function.update_of_ne hother, List.getElem?_append_left (by omega)]
      exact h.data i (by omega) (by omega)

theorem sampleSum_le (xs : List UInt8) : sampleSum xs ≤ 255 * xs.length := by
  induction xs with
  | nil => simp [sampleSum]
  | cons x xs ih =>
      have hx := x.toNat_lt
      rw [← List.singleton_append, sampleSum_append, sampleSum_singleton, List.length_append,
        List.length_singleton]
      omega

/-- The mean of a class is that of its window, when the total of no window wraps. -/
theorem Sample.Holds.mean_eq (h : c.Holds w.toNat ys) (hfits : 255 * w.toNat < 2 ^ 64) :
    c.mean w = lastMean w.toNat ys := by
  have hle := sampleSum_le (ys.drop (ys.length - w.toNat))
  have hlen : (ys.drop (ys.length - w.toNat)).length ≤ w.toNat := by
    rw [List.length_drop]
    omega
  have hsum : c.wTotal.toNat = sampleSum (ys.drop (ys.length - w.toNat)) := by
    have hlt : sampleSum (ys.drop (ys.length - w.toNat)) < 2 ^ 64 := by omega
    rw [h.total, UInt64.toNat_ofNat_of_lt' hlt]
  rw [Sample.mean, ← UInt8.ofNat_uInt64ToNat, UInt64.toNat_div, hsum, lastMean]

end Class

/-! ## One call -/

section Call

variable {ss : Ssampler} {x : UInt8} {cls left : Nat}

/-- What the classes from `cls` on receive when a sample goes up from there: the classes receive one each,
and each receives the mean of the class below. -/
structure GoesUp (ss ss' : Ssampler) (x : UInt8) (cls left : Nat) (log : List (Nat × UInt8))
    (v : Nat → UInt8) : Prop where
  shape : ss'.wSize = ss.wSize ∧ ss'.nclasses = ss.nclasses
  first : v cls = x
  next : ∀ c, cls ≤ c → c + 1 < cls + left → v (c + 1) = ((ss.samples c).put ss.wSize (v c)).mean ss.wSize
  classes : ∀ c, ss'.samples c =
    if cls ≤ c ∧ c < cls + left then (ss.samples c).put ss.wSize (v c) else ss.samples c
  log : log = (List.range' cls left).map fun c => (c, v c)

/-- A class takes a sample and hands its mean on. -/
theorem GoesUp.cons {ss' : Ssampler} {log : List (Nat × UInt8)} {v : Nat → UInt8}
    (h : GoesUp (ss.setClass cls ((ss.samples cls).put ss.wSize x)) ss'
      (((ss.samples cls).put ss.wSize x).mean ss.wSize) (cls + 1) left log v) :
    GoesUp ss ss' x cls (left + 1) ((cls, x) :: log) (Function.update v cls x) := by
  constructor
  case shape => exact h.shape
  case first => exact Function.update_self ..
  case next =>
    intro c hle hlt
    rw [Function.update_of_ne (by omega)]
    by_cases hc : c = cls
    · rw [hc, Function.update_self, h.first]
    · rw [Function.update_of_ne hc, h.next c (by omega) (by omega), ss.setClass_of_ne _ hc]
      rfl
  case classes =>
    intro c
    rw [h.classes c]
    by_cases hc : c = cls
    · rw [hc, if_neg (by omega), if_pos (by omega), Function.update_self, ss.setClass_self]
    · rw [ss.setClass_of_ne _ hc, Function.update_of_ne hc]
      refine if_congr ?_ rfl rfl
      omega
  case log =>
    rw [h.log, List.range'_succ, List.map_cons, Function.update_self]
    refine congrArg (List.cons _) (List.map_congr_left fun c hc => ?_)
    have hrange := List.mem_range'_1.mp hc
    rw [Function.update_of_ne (by omega)]

/-- Above the lowest class, a sample goes up to the highest one. -/
theorem addSample_goesUp (hcls : 0 < cls) (hptr : (ss.samples 0).sPtr % ss.wSize = 0) :
    ∃ v, GoesUp ss (addSample ss x cls left).1 x cls left (addSample ss x cls left).2 v := by
  induction left generalizing ss x cls with
  | zero =>
      refine ⟨fun _ => x, ⟨rfl, rfl⟩, rfl, fun c hle hlt => by omega, fun c => ?_, rfl⟩
      rw [if_neg (by omega)]
      rfl
  | succ left ih =>
      have hzero : (ss.setClass cls ((ss.samples cls).put ss.wSize x)).samples 0 = ss.samples 0 :=
        ss.setClass_of_ne _ (by omega)
      have hptr' : ((ss.setClass cls ((ss.samples cls).put ss.wSize x)).samples 0).sPtr %
          ss.wSize = 0 := by rw [hzero, hptr]
      obtain ⟨v, hv⟩ := @ih _ (((ss.samples cls).put ss.wSize x).mean ss.wSize) (cls + 1)
        (Nat.succ_pos cls) hptr'
      rw [addSample]
      simp only [Ssampler.setClass_wSize, hptr', if_true]
      exact ⟨_, hv.cons⟩

/-- A call gives a sample to the lowest class, and to all classes when the number of samples of the lowest
class becomes a multiple of the window. -/
theorem addSample_spec (hk : 0 < ss.nclasses) :
    ∃ v, GoesUp ss (ssmplrAddSample ss x).1 x 0
      (if ((ss.samples 0).sPtr + 1) % ss.wSize = 0 then ss.nclasses else 1)
      (ssmplrAddSample ss x).2 v := by
  obtain ⟨left, hleft⟩ := Nat.exists_eq_succ_of_ne_zero hk.ne'
  have hptr : ((ss.samples 0).put ss.wSize x).sPtr = (ss.samples 0).sPtr + 1 := by rw [Sample.put_eq]
  rw [ssmplrAddSample, hleft, addSample]
  by_cases htest : ((ss.samples 0).sPtr + 1) % ss.wSize = 0
  · obtain ⟨v, hv⟩ := @addSample_goesUp (ss.setClass 0 ((ss.samples 0).put ss.wSize x))
      (((ss.samples 0).put ss.wSize x).mean ss.wSize) 1 left Nat.one_pos
      (by rw [ss.setClass_self, hptr]; exact htest)
    simp only [Ssampler.setClass_wSize, Ssampler.setClass_self, hptr, htest, if_true]
    exact ⟨_, hv.cons⟩
  · simp only [Ssampler.setClass_wSize, Ssampler.setClass_self, hptr, htest, if_false]
    refine ⟨fun _ => x, ⟨rfl, rfl⟩, rfl, fun c _ hlt => by omega, fun c => ?_, rfl⟩
    by_cases hc : c = 0
    · rw [hc, if_pos (by omega), ss.setClass_self]
    · rw [if_neg (by omega), ss.setClass_of_ne _ hc]

theorem received_append (log log' : List (Nat × UInt8)) (c : Nat) :
    received (log ++ log') c = received log c ++ received log' c := by
  simp [received]

/-- The sample that a class receives in a call. -/
theorem GoesUp.received_eq {ss' : Ssampler} {log : List (Nat × UInt8)} {v : Nat → UInt8}
    (h : GoesUp ss ss' x 0 left log v) (c : Nat) :
    received log c = if c < left then [v c] else [] := by
  have hrange : ∀ n, ((List.range n).map fun d => (d, v d)).filter (fun e => e.1 = c) =
      if c < n then [(c, v c)] else [] := by
    intro n
    induction n with
    | zero => rfl
    | succ n ih =>
        rw [List.range_succ, List.map_append, List.filter_append, ih]
        by_cases hc : c = n
        · simp [hc]
        · by_cases hlt : c < n
          · simp [hlt, Nat.lt_succ_of_lt hlt, Ne.symm hc]
          · simp [hlt, Ne.symm hc, show ¬ c < n + 1 by omega]
  rw [received, h.log, ← List.range_eq_range', hrange]
  split_ifs <;> rfl

end Call

/-! ## Runs -/

section Runs

variable {ss : Ssampler} {xs : List UInt8} {x : UInt8}

theorem addSamples_concat (ss : Ssampler) (xs : List UInt8) (x : UInt8) :
    addSamples ss (xs ++ [x]) =
      ((ssmplrAddSample (addSamples ss xs).1 x).1,
        (addSamples ss xs).2 ++ (ssmplrAddSample (addSamples ss xs).1 x).2) := by
  simp [addSamples]

/-- A sampler as `ssmplr_init` returns it. -/
structure Ssampler.Fresh (ss : Ssampler) : Prop where
  window : 0 < ss.wSize.toNat
  classes : 0 < ss.nclasses
  empty : ∀ c, (ss.samples c).sPtr = 0 ∧ (ss.samples c).wTotal = 0

theorem ssmplrInit_fresh {wSize : UInt64} {nclasses : Nat} {served : Bool}
    {garbage : Nat → Nat → UInt8} (h : ssmplrInit wSize nclasses served garbage = .ok ss) :
    ss.Fresh ∧ ss.wSize = wSize ∧ ss.nclasses = nclasses := by
  obtain ⟨hargs, h⟩ := guard_eq_ok.mp h
  obtain ⟨-, h⟩ := guard_eq_ok.mp h
  obtain rfl := Except.ok.inj h
  rw [not_or] at hargs
  refine ⟨⟨Nat.pos_of_ne_zero fun hzero => hargs.1 (UInt64.toNat_inj.mp hzero), by
    show 0 < nclasses
    omega, fun _ => ⟨rfl, rfl⟩⟩, rfl, rfl⟩

theorem Ssampler.Fresh.holds (h : ss.Fresh) (c : Nat) : (ss.samples c).Holds ss.wSize.toNat [] := by
  obtain ⟨hptr, htotal⟩ := h.empty c
  exact ⟨hptr, by simpa [sampleSum] using htotal, fun i hi => absurd hi (by simp)⟩

/-- What every run of calls keeps. -/
structure Fed (ss : Ssampler) (xs : List UInt8) : Prop where
  shape : (addSamples ss xs).1.wSize = ss.wSize ∧ (addSamples ss xs).1.nclasses = ss.nclasses
  lowest : received (addSamples ss xs).2 0 = xs
  ptr : ((addSamples ss xs).1.samples 0).sPtr = UInt64.ofNat xs.length

/-- The number of samples of the lowest class is a multiple of the window, as `__add_sample` sees it. -/
def Promotes (w : UInt64) (n : Nat) : Prop := UInt64.ofNat n % w = 0

/-- A further call, as a sample that goes up. -/
theorem Fed.goesUp (h : Fed ss xs) (hfresh : ss.Fresh) (x : UInt8) :
    ∃ left v, (left = ss.nclasses ∧ Promotes ss.wSize (xs.length + 1) ∨
        left = 1 ∧ ¬ Promotes ss.wSize (xs.length + 1)) ∧
      GoesUp (addSamples ss xs).1 (addSamples ss (xs ++ [x])).1 x 0 left
        (ssmplrAddSample (addSamples ss xs).1 x).2 v ∧
      ∀ c, received (addSamples ss (xs ++ [x])).2 c =
        received (addSamples ss xs).2 c ++ if c < left then [v c] else [] := by
  obtain ⟨v, hv⟩ := @addSample_spec (addSamples ss xs).1 x
    (h.shape.2.symm ▸ hfresh.classes)
  rw [h.shape.1, h.shape.2, h.ptr] at hv
  have hnext : UInt64.ofNat xs.length + 1 = UInt64.ofNat (xs.length + 1) := by simp
  rw [hnext] at hv
  refine ⟨if UInt64.ofNat (xs.length + 1) % ss.wSize = 0 then ss.nclasses else 1, v, ?_, ?_,
    fun c => ?_⟩
  · by_cases htest : UInt64.ofNat (xs.length + 1) % ss.wSize = 0
    · exact .inl ⟨if_pos htest, htest⟩
    · exact .inr ⟨if_neg htest, htest⟩
  · rw [addSamples_concat]
    exact hv
  · rw [addSamples_concat, received_append, hv.received_eq]

theorem fed (hfresh : ss.Fresh) (xs : List UInt8) : Fed ss xs := by
  induction xs using List.reverseRecOn with
  | nil => exact ⟨⟨rfl, rfl⟩, rfl, (hfresh.empty 0).1⟩
  | append_singleton xs x ih =>
      obtain ⟨left, v, hleft, hup, hreceived⟩ := ih.goesUp hfresh x
      have hpos : 0 < left := by
        rcases hleft with ⟨rfl, -⟩ | ⟨rfl, -⟩
        · exact hfresh.classes
        · exact Nat.one_pos
      refine ⟨⟨hup.shape.1.trans ih.shape.1, hup.shape.2.trans ih.shape.2⟩, ?_, ?_⟩
      · rw [hreceived 0, ih.lowest, if_pos hpos, hup.first]
      · rw [hup.classes 0, if_pos (by omega), Sample.put_eq]
        simp [ih.ptr]

/-- Every class has received the means of the class below it. -/
def Promoted (ss : Ssampler) (xs : List UInt8) : Prop :=
  ∀ c, c + 1 < ss.nclasses →
    received (addSamples ss xs).2 (c + 1) = windowMeans ss.wSize.toNat (received (addSamples ss xs).2 c)

theorem promoted_nil (ss : Ssampler) : Promoted ss [] := by
  intro c _
  simp [addSamples, received, windowMeans]

/-- How many samples a class has received. -/
theorem Promoted.length_received (h : Promoted ss xs) (hfresh : ss.Fresh) {c : Nat}
    (hc : c < ss.nclasses) :
    (received (addSamples ss xs).2 c).length = xs.length / ss.wSize.toNat ^ c := by
  induction c with
  | zero => rw [(fed hfresh xs).lowest, pow_zero, Nat.div_one]
  | succ c ih => rw [h c hc, length_windowMeans, ih (by omega), Nat.div_div_eq_div_mul, pow_succ]

/-- A call that does not fill a window of the lowest class, in the code and by the count. -/
theorem Promoted.concat_of_not (h : Promoted ss xs) (hfresh : ss.Fresh)
    (hnot : ¬ Promotes ss.wSize (xs.length + 1)) (hdvd : ¬ ss.wSize.toNat ∣ xs.length + 1) :
    Promoted ss (xs ++ [x]) := by
  obtain ⟨left, v, ⟨-, hpromotes⟩ | ⟨rfl, -⟩, -, hreceived⟩ := (fed hfresh xs).goesUp hfresh x
  · exact absurd hpromotes hnot
  · intro c hc
    rw [hreceived, hreceived, if_neg (by omega), List.append_nil, h c hc]
    by_cases hzero : c = 0
    · have hx : v 0 = x := by
        have hlow := hreceived 0
        rw [(fed hfresh _).lowest, (fed hfresh _).lowest, if_pos Nat.one_pos] at hlow
        exact (List.singleton_inj.mp (List.append_cancel_left hlow)).symm
      rw [hzero, if_pos Nat.one_pos, (fed hfresh xs).lowest, windowMeans_concat hfresh.window,
        if_neg hdvd]
    · rw [if_neg (by omega), List.append_nil]

/-- The lowest class, until its counter wraps. -/
theorem holds_lowest (hfresh : ss.Fresh) (hlen : xs.length ≤ 2 ^ 64) :
    ((addSamples ss xs).1.samples 0).Holds ss.wSize.toNat xs := by
  induction xs using List.reverseRecOn with
  | nil =>
      exact hfresh.holds 0
  | append_singleton xs x ih =>
      rw [List.length_append, List.length_singleton] at hlen
      obtain ⟨left, v, hleft, hup, -⟩ := (fed hfresh xs).goesUp hfresh x
      have hpos : 0 < left := by
        have := hfresh.classes
        omega
      rw [hup.classes 0, if_pos (by omega), (fed hfresh xs).shape.1, hup.first]
      exact (ih (by omega)).put hfresh.window (by omega)

/-- While the counter has not wrapped past zero, the test is that of the count. -/
theorem promotes_iff {w : UInt64} {n : Nat} (hn : n < 2 ^ 64 ∨ n = 2 ^ 64 ∧ w.toNat ∣ 2 ^ 64) :
    Promotes w n ↔ w.toNat ∣ n := by
  have hmod : Promotes w n ↔ n % 2 ^ 64 % w.toNat = 0 := by
    rw [Promotes, ← UInt64.toNat_inj, UInt64.toNat_mod, UInt64.toNat_ofNat']
    rfl
  rw [hmod, Nat.dvd_iff_mod_eq_zero]
  rcases hn with hlt | ⟨rfl, hdvd⟩
  · rw [Nat.mod_eq_of_lt hlt]
  · rw [Nat.mod_self, Nat.zero_mod, Nat.mod_eq_zero_of_dvd hdvd]

/-- With two classes, or windows of one sample, no count is needed but that of the lowest class. -/
theorem promoted_of_regime (hfresh : ss.Fresh) (hk : ss.nclasses ≤ 2 ∨ ss.wSize.toNat = 1)
    (hfits : 255 * ss.wSize.toNat < 2 ^ 64)
    (hlen : xs.length < 2 ^ 64 ∨ xs.length = 2 ^ 64 ∧ ss.wSize.toNat ∣ 2 ^ 64) :
    Promoted ss xs ∧ ∀ c < ss.nclasses,
      ((addSamples ss xs).1.samples c).Holds ss.wSize.toNat (received (addSamples ss xs).2 c) := by
  induction xs using List.reverseRecOn with
  | nil =>
      exact ⟨promoted_nil ss, fun c _ => hfresh.holds c⟩
  | append_singleton xs x ih =>
      rw [List.length_append, List.length_singleton] at hlen
      obtain ⟨hpromoted, hholds⟩ := ih (by omega)
      have hiff : Promotes ss.wSize (xs.length + 1) ↔ ss.wSize.toNat ∣ xs.length + 1 :=
        promotes_iff hlen
      obtain ⟨left, v, hleft, hup, hreceived⟩ := (fed hfresh xs).goesUp hfresh x
      rcases hleft with ⟨rfl, htest⟩ | ⟨rfl, htest⟩
      · -- every class takes a sample
        have hput : ∀ c < ss.nclasses, ((addSamples ss (xs ++ [x])).1.samples c).Holds ss.wSize.toNat
            (received (addSamples ss (xs ++ [x])).2 c) := by
          intro c hc
          have hshort : (received (addSamples ss xs).2 c).length ≤ xs.length := by
            rw [hpromoted.length_received hfresh hc]
            exact Nat.div_le_self ..
          rw [hup.classes c, if_pos (by omega), (fed hfresh xs).shape.1, hreceived c, if_pos hc]
          exact (hholds c hc).put hfresh.window (by omega)
        refine ⟨fun c hc => ?_, hput⟩
        have hmean := (hput c (by omega)).mean_eq hfits
        rw [hup.classes c, if_pos (by omega), (fed hfresh xs).shape.1] at hmean
        have hdvd : ss.wSize.toNat ∣ (received (addSamples ss xs).2 c).length + 1 := by
          rcases hk with htwo | hone
          · obtain rfl : c = 0 := by omega
            rw [(fed hfresh xs).lowest]
            exact hiff.mp htest
          · rw [hone]
            exact one_dvd _
        have hnext := hup.next c (by omega) (by omega)
        rw [(fed hfresh xs).shape.1, hmean, hreceived c, if_pos (by omega)] at hnext
        rw [hreceived (c + 1), hreceived c, if_pos (by omega), if_pos (by omega),
          windowMeans_concat hfresh.window, if_pos hdvd, hpromoted c hc, hnext]
      · refine ⟨hpromoted.concat_of_not hfresh htest fun hdvd => htest (hiff.mpr hdvd), fun c hc => ?_⟩
        by_cases hzero : c = 0
        · rw [hzero, (fed hfresh (xs ++ [x])).lowest]
          apply holds_lowest hfresh
          rw [List.length_append, List.length_singleton]
          omega
        · rw [hup.classes c, if_neg (by omega), hreceived c, if_neg (by omega), List.append_nil]
          exact hholds c hc

/-- After the counter wrapped, nothing goes up before the next window is full. -/
theorem promoted_late (hfresh : ss.Fresh) (hk : ss.nclasses ≤ 2 ∨ ss.wSize.toNat = 1)
    (hfits : 255 * ss.wSize.toNat < 2 ^ 64) (hdvd : ss.wSize.toNat ∣ 2 ^ 64)
    (hlen : xs.length < 2 ^ 64 + ss.wSize.toNat) : Promoted ss xs := by
  induction xs using List.reverseRecOn with
  | nil => exact promoted_nil ss
  | append_singleton xs x ih =>
      by_cases hearly : (xs ++ [x]).length ≤ 2 ^ 64
      · refine (promoted_of_regime hfresh hk hfits ?_).1
        rcases Nat.lt_or_eq_of_le hearly with hlt | heq
        · exact .inl hlt
        · exact .inr ⟨heq, hdvd⟩
      · rw [List.length_append, List.length_singleton] at hlen hearly
        obtain ⟨d, hd⟩ := Nat.exists_eq_add_of_lt (Nat.lt_of_not_le hearly)
        have hsmall : d + 1 < ss.wSize.toNat := by omega
        apply (ih (by omega)).concat_of_not hfresh
        · intro htest
          have hmod := congrArg UInt64.toNat htest
          rw [UInt64.toNat_mod, UInt64.toNat_ofNat', hd, Nat.add_assoc, Nat.add_mod_left] at hmod
          have hw := ss.wSize.toNat_lt
          rw [Nat.mod_eq_of_lt (show d + 1 < 2 ^ 64 by omega), Nat.mod_eq_of_lt hsmall] at hmod
          exact absurd hmod (Nat.succ_ne_zero d)
        · intro hmul
          rw [hd, Nat.add_assoc, Nat.dvd_add_right hdvd] at hmul
          exact absurd (Nat.le_of_dvd (Nat.succ_pos d) hmul) (by omega)

theorem promoted_of_fits (hfresh : ss.Fresh)
    (hfits : CascadeFits ss.wSize.toNat ss.nclasses xs.length) : Promoted ss xs := by
  rcases hfits with hone | hshort | ⟨hk, hbig, hlong⟩
  · intro c hc
    omega
  · induction xs using List.reverseRecOn with
    | nil => exact promoted_nil ss
    | append_singleton xs x ih =>
        rw [List.length_append, List.length_singleton] at hshort
        have hw := ss.wSize.toNat_lt
        have hnot : ¬ ss.wSize.toNat ∣ xs.length + 1 := fun hdvd =>
          absurd (Nat.le_of_dvd (Nat.succ_pos _) hdvd) (by omega)
        apply (ih (by omega)).concat_of_not hfresh
        · rw [promotes_iff (.inl (by omega))]
          exact hnot
        · exact hnot
  · have hk' : ss.nclasses ≤ 2 ∨ ss.wSize.toNat = 1 := hk.imp_left fun h => h.le
    rcases hlong with hlt | ⟨hdvd, hlt⟩
    · exact (promoted_of_regime hfresh hk' hbig (.inl hlt)).1
    · exact promoted_late hfresh hk' hbig hdvd hlt

theorem CascadeFits.mono {w k n m : Nat} (h : CascadeFits w k n) (hle : m ≤ n) : CascadeFits w k m := by
  unfold CascadeFits at *
  omega

/-- When every window fits, every class gets the means of the class below it. -/
theorem cascadeRight_of_fits (hfresh : ss.Fresh)
    (hfits : CascadeFits ss.wSize.toNat ss.nclasses xs.length) : CascadeRight ss xs := by
  have hpre : ∀ pre, pre <+: xs → Promoted ss pre :=
    fun pre hpre => promoted_of_fits hfresh (hfits.mono hpre.length_le)
  exact ⟨hpre, fun pre h c hc => (hpre pre h).length_received hfresh hc⟩

/-- A sample that goes up from the lowest class is as it should be just when a window is full and its mean
is that of the window. -/
theorem Promoted.full_window (h : Promoted ss xs) (h' : Promoted ss (xs ++ [x])) (hfresh : ss.Fresh)
    (hk : 1 < ss.nclasses) (htest : Promotes ss.wSize (xs.length + 1)) :
    ss.wSize.toNat ∣ xs.length + 1 ∧
      ((addSamples ss (xs ++ [x])).1.samples 0).mean ss.wSize = lastMean ss.wSize.toNat (xs ++ [x]) := by
  obtain ⟨left, v, ⟨rfl, -⟩ | ⟨-, hnot⟩, hup, hreceived⟩ := (fed hfresh xs).goesUp hfresh x
  · have hmeans : windowMeans ss.wSize.toNat (xs ++ [x]) = windowMeans ss.wSize.toNat xs ++ [v 1] := by
      have hfirst := h' 0 hk
      rw [hreceived 1, if_pos hk, h 0 hk, (fed hfresh _).lowest, (fed hfresh _).lowest] at hfirst
      exact hfirst.symm
    have hlow : ((addSamples ss (xs ++ [x])).1.samples 0).mean ss.wSize = v 1 := by
      have hnext := hup.next 0 (Nat.zero_le _) (by omega)
      rw [hup.classes 0, if_pos (by omega)]
      rw [(fed hfresh xs).shape.1] at hnext ⊢
      exact hnext.symm
    rw [windowMeans_concat hfresh.window] at hmeans
    by_cases hdvd : ss.wSize.toNat ∣ xs.length + 1
    · rw [if_pos hdvd] at hmeans
      exact ⟨hdvd, hlow.trans (List.singleton_inj.mp (List.append_cancel_left hmeans)).symm⟩
    · rw [if_neg hdvd] at hmeans
      have hlen := congrArg List.length hmeans
      rw [List.length_append, List.length_singleton] at hlen
      omega
  · exact absurd htest hnot

/-- Equal samples: the first calls of a run. -/
theorem CascadeRight.promoted_replicate {n m : Nat} {a : UInt8}
    (h : CascadeRight ss (List.replicate n a)) (hle : m ≤ n) : Promoted ss (List.replicate m a) :=
  h.promoted _ (List.prefix_replicate_iff.mpr ⟨by simpa using hle, by simp⟩)

/-- What `full_window` says of equal samples. -/
theorem CascadeRight.replicate_window {n m : Nat} {a : UInt8}
    (h : CascadeRight ss (List.replicate n a)) (hfresh : ss.Fresh) (hk : 1 < ss.nclasses)
    (hle : m ≤ n) (hm : 0 < m) (htest : Promotes ss.wSize m) :
    ss.wSize.toNat ∣ m ∧ ((addSamples ss (List.replicate m a)).1.samples 0).mean ss.wSize =
      lastMean ss.wSize.toNat (List.replicate m a) := by
  obtain ⟨d, rfl⟩ := Nat.exists_eq_succ_of_ne_zero hm.ne'
  have hbefore := h.promoted_replicate (m := d) (by omega)
  have hafter := h.promoted_replicate hle
  rw [List.replicate_succ'] at hafter ⊢
  have hfull := hbefore.full_window hafter hfresh hk (by rwa [List.length_replicate])
  rwa [List.length_replicate] at hfull

theorem lastMean_replicate {w m : Nat} (a : UInt8) (hw : 0 < w) (hle : w ≤ m) :
    lastMean w (List.replicate m a) = a := by
  have hsum : sampleSum (List.replicate w a) = w * a.toNat := by simp [sampleSum]
  rw [lastMean, List.length_replicate, List.drop_replicate, show m - (m - w) = w by omega, hsum,
    Nat.mul_div_cancel_left _ hw, UInt8.ofNat_toNat]

/-- The total of the lowest class in the first window after the counter wrapped. -/
theorem wrapped_total (hfresh : ss.Fresh) (hlen : xs.length = 2 ^ 64) {j : Nat}
    (hj : j ≤ ss.wSize.toNat) :
    ((addSamples ss (xs ++ List.replicate j 1)).1.samples 0).wTotal =
      ((addSamples ss xs).1.samples 0).wTotal + UInt64.ofNat j := by
  induction j with
  | zero => simp
  | succ j ih =>
      have hfed := fed hfresh (xs ++ List.replicate j 1)
      obtain ⟨left, v, hleft, hup, -⟩ := hfed.goesUp hfresh 1
      have hpos : 0 < left := by
        have := hfresh.classes
        omega
      have hptr : ((addSamples ss (xs ++ List.replicate j 1)).1.samples 0).sPtr = UInt64.ofNat j := by
        rw [hfed.ptr, List.length_append, List.length_replicate, hlen, ← UInt64.toNat_inj,
          UInt64.toNat_ofNat', UInt64.toNat_ofNat', Nat.add_mod_left]
      have hroom : ¬ UInt64.ofNat j ≥ ss.wSize := by
        have hjlt : j < 2 ^ 64 := Nat.lt_trans hj ss.wSize.toNat_lt
        rw [ge_iff_le, UInt64.le_iff_toNat_le, UInt64.toNat_ofNat_of_lt' hjlt]
        omega
      rw [List.replicate_succ', ← List.append_assoc, hup.classes 0, if_pos (by omega), hfed.shape.1,
        hup.first, Sample.put_eq, hptr, if_neg hroom, ih (by omega), UInt64.ofNat_add, UInt64.add_assoc]
      rfl

/-- The mean of a class whose total is known. -/
theorem Sample.mean_toNat {w : UInt64} {c : Sample} {n : Nat} (h : c.wTotal = UInt64.ofNat n) :
    (c.mean w).toNat = n % 2 ^ 64 / w.toNat % 256 := by
  rw [Sample.mean, UInt64.toNat_toUInt8, UInt64.toNat_div, h, UInt64.toNat_ofNat']

/-- Whatever the samples are, a window that fills sends a sample to the third class. -/
theorem few_classes (hfresh : ss.Fresh) {n : Nat} (hall : ∀ xs, xs.length = n → CascadeRight ss xs)
    (hle : ss.wSize.toNat ≤ n) : ss.nclasses ≤ 2 ∨ ss.wSize.toNat = 1 := by
  by_contra hnot
  obtain ⟨hclasses, hone⟩ := not_or.mp hnot
  obtain ⟨d, hd⟩ := Nat.exists_eq_succ_of_ne_zero hfresh.window.ne'
  have hlt := ss.wSize.toNat_lt
  have hsquare : d + 1 < (d + 1) ^ 2 := by
    have hpos : 1 ≤ d := by omega
    nlinarith
  have hright := hall (List.replicate n 0) List.length_replicate
  have hcount := (hright.promoted_replicate hle).length_received hfresh (c := 2) (by omega)
  have htest : Promotes ss.wSize ((List.replicate d (0 : UInt8)).length + 1) := by
    rw [List.length_replicate, promotes_iff (.inl (by omega)), hd]
  rw [hd, List.replicate_succ', List.length_append, List.length_replicate, List.length_singleton,
    Nat.div_eq_of_lt hsquare] at hcount
  obtain ⟨left, v, ⟨rfl, -⟩ | ⟨-, hno⟩, -, hreceived⟩ :=
    (fed hfresh (List.replicate d 0)).goesUp hfresh 0
  · rw [hreceived 2, if_pos (by omega), List.length_append, List.length_singleton] at hcount
    omega
  · exact hno htest

/-- The largest samples make the total of a window wrap. -/
theorem window_fits (hfresh : ss.Fresh) {n : Nat} (hall : ∀ xs, xs.length = n → CascadeRight ss xs)
    (hk : 1 < ss.nclasses) (hle : ss.wSize.toNat ≤ n) : 255 * ss.wSize.toNat < 2 ^ 64 := by
  by_contra hbig
  have hw := hfresh.window
  have hlt := ss.wSize.toNat_lt
  have htest : Promotes ss.wSize ss.wSize.toNat := (promotes_iff (.inl hlt)).mpr dvd_rfl
  have hright := hall (List.replicate n 255) List.length_replicate
  have hmean := (hright.replicate_window hfresh hk hle hw htest).2
  rw [lastMean_replicate _ hw le_rfl] at hmean
  have htotal := (@holds_lowest ss (List.replicate ss.wSize.toNat 255) hfresh
    (by rw [List.length_replicate]; omega)).total
  have hsum : sampleSum (List.replicate ss.wSize.toNat 255) = ss.wSize.toNat * 255 := by
    simp [sampleSum]
  rw [List.length_replicate, Nat.sub_self, List.drop_zero, hsum] at htotal
  have hvalue := Sample.mean_toNat (w := ss.wSize) htotal
  rw [hmean] at hvalue
  have hwrapped : ss.wSize.toNat * 255 % 2 ^ 64 < ss.wSize.toNat * 255 :=
    Nat.lt_of_lt_of_le (Nat.mod_lt _ (by norm_num)) (by omega)
  have hsmall := Nat.div_lt_of_lt_mul hwrapped
  rw [Nat.mod_eq_of_lt (by omega)] at hvalue
  have h255 : (255 : UInt8).toNat = 255 := rfl
  omega

/-- The first window after the counter wrapped has the total of two windows. -/
theorem counter_fits (hfresh : ss.Fresh) {n : Nat} (hall : ∀ xs, xs.length = n → CascadeRight ss xs)
    (hk : 1 < ss.nclasses) :
    n < 2 ^ 64 ∨ ss.wSize.toNat ∣ 2 ^ 64 ∧ n < 2 ^ 64 + ss.wSize.toNat := by
  by_contra hnot
  obtain ⟨hlong, hlate⟩ := not_or.mp hnot
  have hw := hfresh.window
  have hlt := ss.wSize.toNat_lt
  have hright := hall (List.replicate n 1) List.length_replicate
  have hdvd : ss.wSize.toNat ∣ 2 ^ 64 := by
    refine (hright.replicate_window hfresh hk (by omega) (by norm_num) ?_).1
    rw [Promotes, ← UInt64.toNat_inj, UInt64.toNat_mod, UInt64.toNat_ofNat', Nat.mod_self, Nat.zero_mod]
    rfl
  have hle : 2 ^ 64 + ss.wSize.toNat ≤ n := by
    by_contra hshort
    exact hlate ⟨hdvd, by omega⟩
  have htest : Promotes ss.wSize (2 ^ 64 + ss.wSize.toNat) := by
    rw [Promotes, ← UInt64.toNat_inj, UInt64.toNat_mod, UInt64.toNat_ofNat', Nat.add_mod_left,
      Nat.mod_eq_of_lt hlt, Nat.mod_self]
    rfl
  have hmean := (hright.replicate_window hfresh hk hle (by omega) htest).2
  rw [lastMean_replicate _ hw (by omega)] at hmean
  have hbefore : ((addSamples ss (List.replicate (2 ^ 64) 1)).1.samples 0).wTotal =
      UInt64.ofNat ss.wSize.toNat := by
    have htotal := (@holds_lowest ss (List.replicate (2 ^ 64) 1) hfresh
      (by rw [List.length_replicate])).total
    rw [htotal, List.length_replicate, List.drop_replicate,
      show 2 ^ 64 - (2 ^ 64 - ss.wSize.toNat) = ss.wSize.toNat by omega]
    simp [sampleSum]
  have htotal := wrapped_total hfresh (List.length_replicate (n := 2 ^ 64) (a := (1 : UInt8))) le_rfl
  rw [hbefore, ← UInt64.ofNat_add, List.replicate_append_replicate] at htotal
  have hvalue := Sample.mean_toNat (w := ss.wSize) htotal
  rw [hmean] at hvalue
  have hone : (1 : UInt8).toNat = 1 := rfl
  obtain ⟨q, hq⟩ := hdvd
  have hq1 : q ≠ 1 := by
    rintro rfl
    omega
  have hq0 : q ≠ 0 := by
    rintro rfl
    omega
  by_cases hq2 : q = 2
  · rw [hq2] at hq
    rw [show ss.wSize.toNat + ss.wSize.toNat = 2 ^ 64 by omega, Nat.mod_self, Nat.zero_div] at hvalue
    omega
  · have hthree : ss.wSize.toNat * 3 ≤ 2 ^ 64 := hq ▸ Nat.mul_le_mul_left _ (by omega)
    rw [Nat.mod_eq_of_lt (show ss.wSize.toNat + ss.wSize.toNat < 2 ^ 64 by omega), ← Nat.two_mul,
      Nat.mul_div_cancel _ hw] at hvalue
    omega

end Runs

/-- For a sampler that `ssmplr_init` returned: in every run of `n` calls the classes receive what they
should, just when the windows fit. -/
theorem sampler_cascade_iff {wSize : UInt64} {nclasses : Nat} {served : Bool}
    {garbage : Nat → Nat → UInt8} {ss : Ssampler}
    (h : ssmplrInit wSize nclasses served garbage = .ok ss) (n : Nat) :
    (∀ xs : List UInt8, xs.length = n → CascadeRight ss xs) ↔ CascadeFits wSize.toNat nclasses n := by
  obtain ⟨hfresh, rfl, rfl⟩ := ssmplrInit_fresh h
  constructor
  · intro hall
    by_cases hone : ss.nclasses = 1
    · exact .inl hone
    by_cases hshort : n < ss.wSize.toNat
    · exact .inr (.inl hshort)
    have hpos := hfresh.classes
    have hk : 1 < ss.nclasses := by omega
    refine .inr (.inr ⟨?_, window_fits hfresh hall hk (by omega), counter_fits hfresh hall hk⟩)
    exact (few_classes hfresh hall (by omega)).imp_left fun hle => by omega
  · rintro hfits xs rfl
    exact cascadeRight_of_fits hfresh hfits

/-- A sampler with windows of ten samples and two classes. -/
theorem two_classes_cascade :
    (∀ xs : List UInt8, xs.length = 1000 → CascadeRight ⟨10, 2, fun _ => ⟨0, 0, fun _ => 0⟩⟩ xs) ∧
      CascadeFits 10 2 1000 := by
  have hfits : CascadeFits 10 2 1000 := .inr (.inr ⟨.inl rfl, by decide, .inl (by decide)⟩)
  exact ⟨(@sampler_cascade_iff 10 2 true (fun _ _ => 0) _ rfl 1000).mpr hfits,
    hfits⟩

/-- Windows of two samples and three classes: the first full window gives a sample to the third class too,
though the second class has received only one. -/
theorem third_class_too_early :
    (addSamples ⟨2, 3, fun _ => ⟨0, 0, fun _ => 0⟩⟩ [5, 7]).2 = [(0, 5), (0, 7), (1, 6), (2, 3)] ∧
      ¬ CascadeRight ⟨2, 3, fun _ => ⟨0, 0, fun _ => 0⟩⟩ [5, 7] := by
  have hlog : (addSamples ⟨2, 3, fun _ => ⟨0, 0, fun _ => 0⟩⟩ [5, 7]).2 =
      [(0, 5), (0, 7), (1, 6), (2, 3)] := by decide
  refine ⟨hlog, fun h => ?_⟩
  have hcount := h.counts [5, 7] List.prefix_rfl 2 (by decide)
  rw [hlog] at hcount
  exact absurd hcount (by decide)

end Lib
end Micael
