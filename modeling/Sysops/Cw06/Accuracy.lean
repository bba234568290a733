import Sysops.Library.Rectangles
import Sysops.Cw06.Parent

/-!
# `cw06`: how near the sums come to the integral

Both programs add up rectangles under one curve. In exact arithmetic what
`calculator.c` answers is off by at most twice the square of the length of
the range over the number of intervals, and `main` of `cw06/zad1` prints at
least `π`, and at most the first strip more, for every width.
-/

namespace Sysops.Cw06

open Set

/-- What both programs integrate. -/
noncomputable def curve (x : ℝ) : ℝ := 4 / (1 + x * x)

theorem curve_pos (x : ℝ) : 0 < 1 + x * x := by
  have hsquare := mul_self_nonneg x
  linarith

theorem integral_curve (a b : ℝ) :
    ∫ x in a..b, curve x = 4 * (Real.arctan b - Real.arctan a) := by
  rw [← integral_one_div_one_add_sq, ← intervalIntegral.integral_const_mul]
  refine intervalIntegral.integral_congr fun x _ => ?_
  show 4 / (1 + x * x) = 4 * (1 / (1 + x ^ 2))
  rw [mul_one_div, pow_two]

theorem antitone_curve : AntitoneOn curve (Ici 0) := by
  intro x hx y _ hxy
  have hx : 0 ≤ x := hx
  have hsquares : x * x ≤ y * y := mul_self_le_mul_self hx hxy
  rw [curve, curve, div_le_div_iff_of_pos_left (by norm_num) (curve_pos y)
    (curve_pos x)]
  linarith

/-- It is nowhere steeper than this. -/
theorem lipschitz_curve : LipschitzWith 4 curve := by
  refine LipschitzWith.of_dist_le_mul fun x y => ?_
  have hx := curve_pos x
  have hy := curve_pos y
  have hdiff : curve x - curve y =
      4 * ((y + x) / ((1 + x * x) * (1 + y * y))) * (y - x) := by
    rw [curve, curve]
    field_simp
    ring
  have hslope : |(y + x) / ((1 + x * x) * (1 + y * y))| ≤ 1 := by
    rw [abs_div, abs_of_pos (mul_pos hx hy), div_le_one (mul_pos hx hy),
      abs_le]
    constructor
    · nlinarith [sq_nonneg (x + 1), sq_nonneg (y + 1), mul_self_nonneg (x * y)]
    · nlinarith [sq_nonneg (x - 1), sq_nonneg (y - 1), mul_self_nonneg (x * y)]
  rw [Real.dist_eq, Real.dist_eq, hdiff, abs_mul, abs_mul, abs_sub_comm x y]
  have hfour : |(4 : ℝ)| = 4 := abs_of_pos (by norm_num)
  rw [hfour]
  refine mul_le_mul_of_nonneg_right ?_ (abs_nonneg _)
  show 4 * _ ≤ ((4 : NNReal) : ℝ)
  have hcast : ((4 : NNReal) : ℝ) = 4 := rfl
  rw [hcast]
  linarith

/-! ## The loops as rectangle sums -/

theorem strip_cast (dx x : ℚ) : ((strip dx x : ℚ) : ℝ) = curve x * dx := by
  rw [strip, curve]
  push_cast
  rw [add_comm]

theorem samplePoint_cast (start dx : ℚ) (k : Nat) :
    ((samplePoint start dx k : ℚ) : ℝ) = start + k * dx := by
  rw [samplePoint]
  push_cast
  rfl

theorem calculatePart_cast (start dx : ℚ) (n : Nat) :
    ((calculatePart start dx n : ℚ) : ℝ) =
      Rectangles.leftSum curve start dx n := by
  rw [calculatePart_eq, Int.toNat_natCast, Rectangles.leftSum]
  induction n with
  | zero => simp
  | succ n ih =>
      rw [List.range_succ, List.map_append, List.sum_append, Rat.cast_add, ih,
        List.map_singleton, List.sum_singleton, strip_cast, samplePoint_cast,
        Finset.sum_range_succ]

/-! ## `calculator.c` -/

/-- The answer is as near to the integral as the number of intervals allows. -/
def Near (rInfo : RangeInfo ℚ) (integral : ℚ) : Prop :=
  |(integral : ℝ) - ∫ x in (rInfo.start : ℝ)..rInfo.stop, curve x| ≤
    2 * ((rInfo.stop : ℝ) - rInfo.start) ^ 2 / rInfo.nIntervals

theorem near_integrate {rInfo : RangeInfo ℚ} (hvalid : ¬ rInfo.Invalid) :
    Near rInfo (integrate rInfo) := by
  obtain ⟨start, stop, nIntervals⟩ := rInfo
  rw [RangeInfo.Invalid, not_or, not_le, not_le] at hvalid
  obtain ⟨hpositive, hless⟩ := hvalid
  have hpositive : 0 < nIntervals := hpositive
  have hless : start < stop := hless
  obtain ⟨n, rfl⟩ := Int.eq_ofNat_of_zero_le (Int.le_of_lt hpositive)
  have hn : (0 : ℝ) < n := Nat.cast_pos.mpr (Int.natCast_pos.mp hpositive)
  rw [Near, integrate_eq, calculatePart_cast]
  show |Rectangles.leftSum curve start ((stop - start) / ((n : Int) : ℚ) : ℚ) n -
    ∫ x in (start : ℝ)..stop, curve x| ≤
      2 * ((stop : ℝ) - start) ^ 2 / ((n : Int) : ℝ)
  push_cast
  generalize hdx : ((stop : ℝ) - start) / n = dx
  have hwidth : n * dx = (stop : ℝ) - start := by
    rw [← hdx, mul_div_cancel₀ _ (ne_of_gt hn)]
  have hlength : (0 : ℝ) < stop - start := sub_pos.mpr (Rat.cast_lt.mpr hless)
  have hpos : 0 ≤ dx := by
    rw [← hdx]
    positivity
  have herror := Rectangles.abs_leftSum_sub_integral_le lipschitz_curve hpos
    start n
  rw [hwidth, add_sub_cancel] at herror
  have hbound : n * ((4 : NNReal) * dx ^ 2 / 2) =
      2 * ((stop : ℝ) - start) ^ 2 / n := by
    rw [← hwidth]
    have hfour : ((4 : NNReal) : ℝ) = 4 := rfl
    rw [hfour]
    field_simp
    ring
  rwa [hbound] at herror

section Calculator

variable {ι : Type} [DecidableEq ι] {s t : State ι ℚ} {e : Event ι ℚ}

/-- Only ranges that pass the test of their caller are written. -/
structure Checked (s : State ι ℚ) : Prop where
  caller : ∀ i rInfo, s.caller i = .write rInfo → ¬ rInfo.Invalid
  written : ∀ w ∈ s.written, ¬ w.2.Invalid

theorem Checked.goto (hs : Checked s) (i : ι) {pc : CallerPc ℚ}
    (hpc : ∀ rInfo, pc = .write rInfo → ¬ rInfo.Invalid) :
    ∀ j rInfo, Function.update s.caller i pc j = .write rInfo →
      ¬ rInfo.Invalid := by
  intro j rInfo hj
  by_cases hji : j = i
  · rw [hji, Function.update_self] at hj
    exact hpc rInfo hj
  · rw [Function.update_of_ne hji] at hj
    exact hs.caller j rInfo hj

theorem Checked.step (hs : Checked s) (h : s.step e = some t) :
    Checked t := by
  cases e with
  | scanf i rInfo =>
      simp only [State.step, State.scanf] at h
      split at h
      case h_2 => cases h
      case h_1 =>
        split at h
        · obtain rfl := Option.some.inj h
          exact ⟨hs.goto i (by rintro rInfo ⟨⟩), hs.written⟩
        · split at h
          · obtain rfl := Option.some.inj h
            exact ⟨hs.goto i (by rintro rInfo ⟨⟩), hs.written⟩
          · rename_i hvalid
            obtain rfl := Option.some.inj h
            refine ⟨hs.goto i ?_, hs.written⟩
            rintro rInfo ⟨⟩
            exact hvalid
  | write i =>
      simp only [State.step, State.write] at h
      split at h
      case h_2 => cases h
      case h_1 rInfo hi =>
        obtain rfl := Option.some.inj h
        refine ⟨hs.goto i (by rintro rInfo ⟨⟩), fun w hw => ?_⟩
        rcases List.mem_append.mp hw with hw | hw
        · exact hs.written w hw
        · rw [List.mem_singleton.mp hw]
          exact hs.caller i rInfo hi
  | read i =>
      simp only [State.step, State.read] at h
      split at h
      case h_2 => cases h
      case h_1 =>
        obtain ⟨x, -, rfl⟩ := Option.map_eq_some_iff.mp h
        exact ⟨hs.goto i (by rintro rInfo ⟨⟩), hs.written⟩
  | calculatorRead | calculatorWrite =>
      obtain ⟨pipes, -, rfl⟩ := Option.map_eq_some_iff.mp h
      exact ⟨hs.caller, hs.written⟩

theorem checked_of_reachable (h : (calculator ι ℚ).Reachable s) :
    s.Answered ∧ Checked s := by
  refine h.invariant (I := fun s => s.Answered ∧ Checked s) ?_ ?_
  · rintro s rfl
    exact ⟨rfl, nofun, nofun⟩
  · rintro s e t ⟨hanswered, hchecked⟩ - hst
    exact ⟨hanswered.step hst, hchecked.step hst⟩

/-- Reading and range at one place. -/
theorem answer_at (h : (calculator ι ℚ).Reachable s) {k : Nat}
    {x : Reading ι ℚ} (hx : s.readings[k]? = some x) :
    ∃ w : ι × RangeInfo ℚ, s.written[k]? = some w ∧ ¬ w.2.Invalid ∧
      Near w.2 x.integral := by
  obtain ⟨hanswered, hchecked⟩ := checked_of_reachable h
  have hplace : (s.written.map fun w => integrate w.2)[k]? =
      some x.integral := by
    rw [← hanswered, List.getElem?_append_left, List.getElem?_map, hx]
    · rfl
    · rw [List.length_map]
      exact (List.getElem?_eq_some_iff.mp hx).1
  rw [List.getElem?_map, Option.map_eq_some_iff] at hplace
  obtain ⟨w, hw, hintegral⟩ := hplace
  have hvalid := hchecked.written w (List.mem_of_getElem? hw)
  exact ⟨w, hw, hvalid, hintegral ▸ near_integrate hvalid⟩

/-- **Every answer is an integral**: with any number of callers, the answer
read as the `k`-th is near the integral over the `k`-th range written, which
is a valid one; and where all read their own answers, near the integral that
was asked for. -/
theorem answers_near (h : (calculator ι ℚ).Reachable s) :
    (∀ (k : Nat) (x : Reading ι ℚ), s.readings[k]? = some x →
      ∃ w : ι × RangeInfo ℚ, s.written[k]? = some w ∧ ¬ w.2.Invalid ∧
        Near w.2 x.integral) ∧
      (s.OwnAnswers → ∀ x ∈ s.readings, Near x.asked x.integral) := by
  refine ⟨fun k x => answer_at h, fun hown x hx => ?_⟩
  obtain ⟨rest, hrest⟩ := hown
  obtain ⟨k, hk⟩ := List.mem_iff_getElem?.mp hx
  obtain ⟨w, hw, -, hnear⟩ := answer_at h hk
  have hasked : s.written[k]? = some (x.caller, x.asked) := by
    rw [← hrest, List.getElem?_append_left, List.getElem?_map, hk]
    · rfl
    · rw [List.length_map]
      exact (List.getElem?_eq_some_iff.mp hk).1
  obtain rfl := Option.some.inj (hw.symm.trans hasked)
  exact hnear

end Calculator

/-- Also for those who read in the other order. -/
theorem answers_near_exchanged : ∃ s, (calculator (Fin 2) ℚ).Reachable s ∧
    s.readings.map Reading.caller = [1, 0] ∧
    ∀ (k : Nat) (x : Reading (Fin 2) ℚ), s.readings[k]? = some x →
      ∃ w : Fin 2 × RangeInfo ℚ, s.written[k]? = some w ∧ ¬ w.2.Invalid ∧
        Near w.2 x.integral := by
  have hrun : ∃ s, (calculator (Fin 2) ℚ).Reachable s ∧
      decide (s.readings.map Reading.caller = [1, 0]) = true :=
    System.ReachableIf.exists_of_runLabels State.step (fun _ _ _ h => h)
      (bothAnswered 0 1 ++ [.read 1, .read 0]) (.init rfl) (by decide +kernel)
  obtain ⟨s, hs, horder⟩ := hrun
  exact ⟨s, hs, of_decide_eq_true horder, (answers_near hs).1⟩

end Sysops.Cw06
