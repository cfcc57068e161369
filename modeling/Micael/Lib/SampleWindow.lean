import Micael.Lib.Sample

/-!
# The windows of a sampler

Whatever a class receives and whenever it receives it, its total is that of its last samples, as many as fit into
the window.  The buffer holds these samples once they have been written, and is not read before.

A window of at most `2^32` samples of a byte has a total far below `2^64`, so that no total wraps.

Main results:

- Theorem {lit}`received_eq_classSamples`: what the classes receive.
- Theorem {lit}`classes_hold`: every class of every run keeps its last samples.
- Theorem {lit}`addSampleSafe_of_holds`: no subtraction of a call goes below zero, and every mean is a byte.
- Theorem {lit}`sampler_window`: totals, calls and averages along every run.
-/

namespace Micael
namespace Lib

/-! ## The average -/

/-- `ssmplr_get_avg` of a sampler that is not null. -/
def ssmplrGetAvg (ss : Ssampler) (cls : Nat) : Except Errno Int :=
  if ss.nclasses ≤ cls then .error .einval
  else if (ss.samples cls).sPtr < ss.wSize then .error .einprogress
  else .ok ((((ss.samples cls).wTotal / ss.wSize).toNat : Int).bmod (2 ^ 32))

/-! ## What is promised -/

/-- The sample that `__add_sample` takes out of the total is not larger than the total. -/
def Sample.Decays (w : UInt64) (c : Sample) : Prop :=
  w ≤ c.sPtr → (c.data (c.sPtr % w).toNat).toUInt64 ≤ c.wTotal

/-- The mean of the class fits into eight bits. -/
def Sample.MeanFits (w : UInt64) (c : Sample) : Prop := (c.wTotal / w).toNat < 2 ^ 8

/-- Along the recursion of `__add_sample`, no subtraction goes below zero and every mean that is passed on is a
byte. -/
def AddSampleSafe (ss : Ssampler) (sample : UInt8) (cls : Nat) : Nat → Prop
  | 0 => True
  | left + 1 =>
      let c := (ss.samples cls).put ss.wSize sample
      let ss' := ss.setClass cls c
      (ss.samples cls).Decays ss.wSize ∧
        ((ss'.samples 0).sPtr % ss'.wSize = 0 →
          c.MeanFits ss'.wSize ∧ AddSampleSafe ss' (c.mean ss'.wSize) (cls + 1) left)

/-- The last `n` samples. -/
def lastSamples (n : Nat) (xs : List UInt8) : List UInt8 := xs.drop (xs.length - n)

/-- The samples that belong to a class: all of them to the lowest one, and to the next class, whenever another
`w` samples have come, the mean of the last `w` samples of the class below. -/
def classSamples (w : Nat) : Nat → List UInt8 → List UInt8
  | 0, xs => xs
  | c + 1, xs =>
      (List.range (xs.length / w)).map fun j => lastMean w (classSamples w c (xs.take ((j + 1) * w)))

/-- After the samples `xs`: every class has received what belongs to it, the counters and totals are those of
what the classes received, all calls were safe, and the averages are those of full windows. -/
structure WindowRight (ss : Ssampler) (xs : List UInt8) : Prop where
  samples : ∀ c < ss.nclasses, received (addSamples ss xs).2 c = classSamples ss.wSize.toNat c xs
  ptr : ∀ c < ss.nclasses,
    ((addSamples ss xs).1.samples c).sPtr.toNat = (received (addSamples ss xs).2 c).length
  total : ∀ c < ss.nclasses,
    ((addSamples ss xs).1.samples c).wTotal.toNat =
      sampleSum (lastSamples (min ((addSamples ss xs).1.samples c).sPtr.toNat ss.wSize.toNat)
        (received (addSamples ss xs).2 c))
  safe : ∀ pre x, pre ++ [x] <+: xs → AddSampleSafe (addSamples ss pre).1 x 0 ss.nclasses
  avg : ∀ c < ss.nclasses,
    ssmplrGetAvg (addSamples ss xs).1 c =
      if (received (addSamples ss xs).2 c).length < ss.wSize.toNat then .error .einprogress
      else .ok ↑(sampleSum (lastSamples ss.wSize.toNat (received (addSamples ss xs).2 c)) / ss.wSize.toNat)

/-! ## One class -/

section Class

variable {w : UInt64} {c : Sample} {ys : List UInt8}

theorem Sample.Holds.ptr_toNat (h : c.Holds w.toNat ys) (hlen : ys.length < 2 ^ 64) :
    c.sPtr.toNat = ys.length := by
  rw [h.ptr, UInt64.toNat_ofNat_of_lt' hlen]

theorem length_lastSamples_le (n : Nat) (xs : List UInt8) : (lastSamples n xs).length ≤ n := by
  rw [lastSamples, List.length_drop]
  omega

/-- The total does not wrap. -/
theorem Sample.Holds.total_toNat (h : c.Holds w.toNat ys) (hw : w.toNat ≤ 2 ^ 32) :
    c.wTotal.toNat = sampleSum (lastSamples w.toNat ys) := by
  have hle := sampleSum_le (lastSamples w.toNat ys)
  have hlen := length_lastSamples_le w.toNat ys
  have hlt : sampleSum (lastSamples w.toNat ys) < 2 ^ 64 := by omega
  rw [h.total]
  exact UInt64.toNat_ofNat_of_lt' hlt

/-- The sample that is taken out of the total is the first one of the window. -/
theorem Sample.Holds.decays (h : c.Holds w.toNat ys) (hw : w.toNat ≤ 2 ^ 32) (hpos : 0 < w.toNat)
    (hlen : ys.length < 2 ^ 64) : c.Decays w := by
  intro hfull
  rw [UInt64.le_iff_toNat_le, h.ptr_toNat hlen] at hfull
  have hsplit : lastSamples w.toNat ys =
      [c.data (ys.length % w.toNat)] ++ ys.drop (ys.length + 1 - w.toNat) := by
    rw [lastSamples, h.oldest hpos hfull, List.singleton_append]
  rw [UInt64.le_iff_toNat_le, h.total_toNat hw, hsplit, sampleSum_append, sampleSum_singleton,
    UInt8.toNat_toUInt64, UInt64.toNat_mod, h.ptr_toNat hlen]
  exact Nat.le_add_right _ _

theorem Sample.Holds.mean_lt (h : c.Holds w.toNat ys) (hw : w.toNat ≤ 2 ^ 32) (hpos : 0 < w.toNat) :
    c.MeanFits w := by
  have hle := sampleSum_le (lastSamples w.toNat ys)
  have hlen := length_lastSamples_le w.toNat ys
  rw [Sample.MeanFits, UInt64.toNat_div, h.total_toNat hw, Nat.div_lt_iff_lt_mul hpos]
  omega

/-- The average of a class. -/
theorem Sample.Holds.avg_eq {ss : Ssampler} {cls : Nat} (h : (ss.samples cls).Holds ss.wSize.toNat ys)
    (hcls : cls < ss.nclasses) (hw : ss.wSize.toNat ≤ 2 ^ 32) (hpos : 0 < ss.wSize.toNat)
    (hlen : ys.length < 2 ^ 64) :
    ssmplrGetAvg ss cls =
      if ys.length < ss.wSize.toNat then .error .einprogress
      else .ok ↑(sampleSum (lastSamples ss.wSize.toNat ys) / ss.wSize.toNat) := by
  have hshort : (ss.samples cls).sPtr < ss.wSize ↔ ys.length < ss.wSize.toNat := by
    rw [UInt64.lt_iff_toNat_lt, h.ptr_toNat hlen]
  have hbyte : ((ss.samples cls).wTotal / ss.wSize).toNat < 2 ^ 8 := h.mean_lt hw hpos
  rw [ssmplrGetAvg, if_neg (by omega), Int.bmod_eq_of_le (by omega) (by omega), UInt64.toNat_div,
    h.total_toNat hw]
  simp only [hshort]

end Class

/-! ## Calls and runs -/

section Runs

variable {ss : Ssampler} {xs : List UInt8} {x : UInt8}

/-- A call is safe when the classes keep their last samples. -/
theorem addSampleSafe_of_holds {cls left : Nat} {ys : Nat → List UInt8} (hw : ss.wSize.toNat ≤ 2 ^ 32)
    (hpos : 0 < ss.wSize.toNat)
    (h : ∀ d, cls ≤ d → d < cls + left → (ss.samples d).Holds ss.wSize.toNat (ys d) ∧ (ys d).length < 2 ^ 64) :
    AddSampleSafe ss x cls left := by
  induction left generalizing ss x cls with
  | zero => trivial
  | succ left ih =>
      obtain ⟨hholds, hlen⟩ := h cls (le_refl cls) (by omega)
      have hput := hholds.put (x := x) hpos hlen
      refine ⟨hholds.decays hw hpos hlen, fun _ => ⟨hput.mean_lt hw hpos, ?_⟩⟩
      apply ih
      · exact hw
      · exact hpos
      · intro d hle hlt
        have hne : d ≠ cls := by omega
        rw [ss.setClass_of_ne _ hne]
        exact h d (by omega) (by omega)

/-- Every class of every run keeps its last samples. -/
theorem classes_hold (hfresh : ss.Fresh) (hlen : xs.length ≤ 2 ^ 64) (c : Nat) :
    ((addSamples ss xs).1.samples c).Holds ss.wSize.toNat (received (addSamples ss xs).2 c) ∧
      (received (addSamples ss xs).2 c).length ≤ xs.length := by
  induction xs using List.reverseRecOn with
  | nil => exact ⟨hfresh.holds c, le_refl 0⟩
  | append_singleton xs x ih =>
      rw [List.length_append, List.length_singleton] at hlen ⊢
      obtain ⟨hholds, hle⟩ := ih (by omega)
      obtain ⟨left, v, -, hup, hreceived⟩ := (fed hfresh xs).goesUp hfresh x
      rw [hup.classes c, hreceived c, (fed hfresh xs).shape.1]
      by_cases hleft : c < left
      · rw [if_pos (by omega), if_pos hleft, List.length_append, List.length_singleton]
        exact ⟨hholds.put hfresh.window (by omega), by omega⟩
      · rw [if_neg (by omega), if_neg hleft, List.append_nil]
        exact ⟨hholds, by omega⟩

/-- One more sample for the lowest class, and one for each other class when a window is full. -/
theorem classSamples_concat {w : Nat} (hw : 0 < w) (c : Nat) :
    classSamples w (c + 1) (xs ++ [x]) =
      classSamples w (c + 1) xs ++
        if w ∣ xs.length + 1 then [lastMean w (classSamples w c (xs ++ [x]))] else [] := by
  rw [classSamples, map_windows_concat (fun ys => lastMean w (classSamples w c ys)) hw, ← classSamples]

/-- Every class receives what belongs to it. -/
theorem received_eq_classSamples (hfresh : ss.Fresh) (hw : ss.wSize.toNat ≤ 2 ^ 32) (hlen : xs.length < 2 ^ 64) :
    ∀ c < ss.nclasses, received (addSamples ss xs).2 c = classSamples ss.wSize.toNat c xs := by
  induction xs using List.reverseRecOn with
  | nil =>
      intro c hc
      have hempty := (classes_hold hfresh hlen.le c).2
      cases c with
      | zero => exact (fed hfresh []).lowest
      | succ c =>
          rw [classSamples, List.length_nil, Nat.zero_div, List.range_zero, List.map_nil]
          exact List.length_eq_zero_iff.mp (Nat.le_zero.mp hempty)
  | append_singleton xs x ih =>
      rw [List.length_append, List.length_singleton] at hlen
      obtain ⟨left, v, hleft, hup, hreceived⟩ := (fed hfresh xs).goesUp hfresh x
      have hpromotes : Promotes ss.wSize (xs.length + 1) ↔ ss.wSize.toNat ∣ xs.length + 1 :=
        promotes_iff (.inl hlen)
      intro c hc
      -- Up to the class `left`, what a class receives is the mean of the window that it has just completed.
      induction c with
      | zero => exact (fed hfresh (xs ++ [x])).lowest
      | succ c ihc =>
          have hbelow := ihc (by omega)
          rw [hreceived (c + 1), classSamples_concat hfresh.window, ih (by omega) (c + 1) hc]
          congr 1
          rcases hleft with ⟨rfl, hfull⟩ | ⟨rfl, hfull⟩
          · obtain ⟨hholds, hle⟩ := classes_hold hfresh (show xs.length ≤ 2 ^ 64 by omega) c
            have hput := hholds.put (x := v c) hfresh.window (by omega)
            have hshape := (fed hfresh xs).shape
            have hmean := hup.next c (Nat.zero_le c) (by omega)
            rw [hshape.1, hput.mean_eq (by omega)] at hmean
            rw [hreceived c, if_pos (by omega)] at hbelow
            rw [if_pos hc, if_pos (hpromotes.mp hfull), hmean, hbelow]
          · rw [if_neg (by omega), if_neg fun hdvd => hfull (hpromotes.mpr hdvd)]

/-- In every run, the totals are those of the windows, no call goes wrong, and the averages are right. -/
theorem sampler_window {wSize : UInt64} {nclasses : Nat} {served : Bool} {garbage : Nat → Nat → UInt8}
    (hinit : ssmplrInit wSize nclasses served garbage = .ok ss) (hw : wSize.toNat ≤ 2 ^ 32)
    (hlen : xs.length < 2 ^ 64) : WindowRight ss xs := by
  obtain ⟨hfresh, rfl, rfl⟩ := ssmplrInit_fresh hinit
  have hshape := (fed hfresh xs).shape
  have hholds : ∀ c < ss.nclasses,
      ((addSamples ss xs).1.samples c).Holds ss.wSize.toNat (received (addSamples ss xs).2 c) ∧
        (received (addSamples ss xs).2 c).length ≤ xs.length :=
    fun c _ => classes_hold hfresh hlen.le c
  constructor
  case samples => exact received_eq_classSamples hfresh hw hlen
  case ptr =>
    intro c hc
    obtain ⟨hclass, hle⟩ := hholds c hc
    exact hclass.ptr_toNat (by omega)
  case total =>
    intro c hc
    obtain ⟨hclass, hle⟩ := hholds c hc
    have hlast : ∀ ys : List UInt8, lastSamples (min ys.length ss.wSize.toNat) ys =
        lastSamples ss.wSize.toNat ys := by
      intro ys
      rw [lastSamples, lastSamples]
      congr 1
      omega
    rw [hclass.total_toNat hw, hclass.ptr_toNat (by omega), hlast]
  case safe =>
    intro pre x hpre
    have hshort : pre.length < 2 ^ 64 := by
      have hle := hpre.length_le
      rw [List.length_append, List.length_singleton] at hle
      omega
    have hwindow := (fed hfresh pre).shape.1
    apply @addSampleSafe_of_holds _ _ 0 ss.nclasses (received (addSamples ss pre).2)
    · rw [hwindow]
      exact hw
    · rw [hwindow]
      exact hfresh.window
    · intro d _ _
      obtain ⟨hclass, hle⟩ := classes_hold hfresh hshort.le d
      rw [hwindow]
      exact ⟨hclass, by omega⟩
  case avg =>
    intro c hc
    obtain ⟨hclass, hle⟩ := hholds c hc
    rw [← hshape.1] at hclass hw ⊢
    have hpos : 0 < (addSamples ss xs).1.wSize.toNat := by
      rw [hshape.1]
      exact hfresh.window
    exact hclass.avg_eq (by omega) hw hpos (by omega)

/-- Three samples in windows of two. -/
theorem two_windows_right :
    ∃ ss, ssmplrInit 2 2 true (fun _ _ => 7) = .ok ss ∧ WindowRight ss [1, 2, 4] :=
  ⟨_, rfl, @sampler_window _ [1, 2, 4] 2 2 true (fun _ _ => 7) rfl (by decide) (by decide)⟩

end Runs

end Lib
end Micael
