import Mathlib.Analysis.SpecialFunctions.Integrals.Basic
import Mathlib.Analysis.SumIntegralComparisons

/-!
# Rectangle sums

Left rectangle sums with strips of one width, against the integral: from
both sides for a function that falls, and up to an error that is quadratic
in the width for a Lipschitz function.
-/

namespace Sysops.Rectangles

open Set intervalIntegral MeasureTheory
open scoped NNReal

variable {f : ℝ → ℝ} {a dx : ℝ} {n : ℕ}

/-- `n` strips of width `dx` from `a` on, each as high as `f` is where it
begins. -/
noncomputable def leftSum (f : ℝ → ℝ) (a dx : ℝ) (n : ℕ) : ℝ :=
  ∑ k ∈ Finset.range n, f (a + k * dx) * dx

/-! ## Functions that fall -/

/-- A strip for each unit. -/
theorem integral_scaled (f : ℝ → ℝ) (a dx : ℝ) (n : ℕ) :
    ∫ x in a..a + n * dx, f x = dx * ∫ x in (0 : ℝ)..0 + n, f (a + dx * x) := by
  have hscale := smul_integral_comp_add_mul (a := 0) (b := 0 + n) f dx a
  rw [mul_zero, add_zero, zero_add, mul_comm dx] at hscale
  rw [zero_add, ← smul_eq_mul]
  exact hscale.symm

theorem antitone_scaled (hdx : 0 ≤ dx)
    (hf : AntitoneOn f (Icc a (a + n * dx))) :
    AntitoneOn (fun x => f (a + dx * x)) (Icc 0 (0 + n)) := by
  have hin : ∀ x ∈ Icc (0 : ℝ) (0 + n), a + dx * x ∈ Icc a (a + n * dx) := by
    intro x hx
    rw [zero_add] at hx
    refine ⟨le_add_of_nonneg_right (mul_nonneg hdx hx.1), ?_⟩
    rw [mul_comm dx]
    gcongr
    exact hx.2
  intro x hx y hy hxy
  refine hf (hin x hx) (hin y hy) ?_
  gcongr

/-- The strips of a function that falls cover the integral. -/
theorem integral_le_leftSum (hdx : 0 ≤ dx)
    (hf : AntitoneOn f (Icc a (a + n * dx))) :
    ∫ x in a..a + n * dx, f x ≤ leftSum f a dx n := by
  have hunit := (antitone_scaled hdx hf).integral_le_sum
  calc ∫ x in a..a + n * dx, f x
      = dx * ∫ x in (0 : ℝ)..0 + n, f (a + dx * x) := integral_scaled f a dx n
    _ ≤ dx * ∑ i ∈ Finset.range n, f (a + dx * (0 + i)) :=
        mul_le_mul_of_nonneg_left hunit hdx
    _ = leftSum f a dx n := by
        rw [leftSum, Finset.mul_sum]
        refine Finset.sum_congr rfl fun k _ => ?_
        rw [zero_add, mul_comm dx, mul_comm dx]

/-- All but the first of them lie under the function. -/
theorem leftSum_le (hdx : 0 ≤ dx) (hf : AntitoneOn f (Icc a (a + n * dx))) :
    leftSum f a dx (n + 1) ≤ f a * dx + ∫ x in a..a + n * dx, f x := by
  have hunit := (antitone_scaled hdx hf).sum_le_integral
  calc leftSum f a dx (n + 1)
      = f a * dx + dx * ∑ i ∈ Finset.range n,
          f (a + dx * (0 + ((i + 1 : ℕ) : ℝ))) := by
        rw [leftSum, Finset.sum_range_succ', Nat.cast_zero, zero_mul, add_zero,
          add_comm, Finset.mul_sum]
        congr 1
        refine Finset.sum_congr rfl fun k _ => ?_
        rw [zero_add, mul_comm dx, mul_comm dx]
    _ ≤ f a * dx + dx * ∫ x in (0 : ℝ)..0 + n, f (a + dx * x) := by
        gcongr
    _ = f a * dx + ∫ x in a..a + n * dx, f x := by
        rw [integral_scaled f a dx n]

/-! ## Lipschitz functions -/

section Lipschitz

variable {K : ℝ≥0} {b : ℝ}

/-- On one strip. -/
theorem abs_strip_sub_integral_le (hf : LipschitzWith K f) (hdx : 0 ≤ dx) :
    |f b * dx - ∫ x in b..b + dx, f x| ≤ K * dx ^ 2 / 2 := by
  have hle : b ≤ b + dx := le_add_of_nonneg_right hdx
  have hint : ∀ c d, IntervalIntegrable f volume c d :=
    fun c d => hf.continuous.intervalIntegrable c d
  have hstrip : f b * dx - ∫ x in b..b + dx, f x =
      ∫ x in b..b + dx, (f b - f x) := by
    rw [integral_sub intervalIntegrable_const (hint _ _),
      intervalIntegral.integral_const, add_sub_cancel_left, smul_eq_mul,
      mul_comm]
  have herror : ∫ x in b..b + dx, K * (x - b) = K * dx ^ 2 / 2 := by
    rw [intervalIntegral.integral_const_mul,
      integral_comp_sub_right (fun x => x), integral_id]
    ring
  rw [hstrip, ← Real.norm_eq_abs, ← herror]
  refine norm_integral_le_of_norm_le hle (Filter.Eventually.of_forall ?_) ?_
  · intro x hx
    have hdist := hf.dist_le_mul b x
    rwa [Real.dist_eq, Real.dist_eq, abs_sub_comm b x,
      abs_of_pos (sub_pos.mpr hx.1)] at hdist
  · exact ((continuous_id.sub continuous_const).const_smul
      (K : ℝ)).intervalIntegrable _ _

/-- The errors of the strips add up. -/
theorem abs_leftSum_sub_integral_le (hf : LipschitzWith K f) (hdx : 0 ≤ dx)
    (a : ℝ) (n : ℕ) :
    |leftSum f a dx n - ∫ x in a..a + n * dx, f x| ≤ n * (K * dx ^ 2 / 2) := by
  have hint : ∀ k < n, IntervalIntegrable f volume (a + (k : ℝ) * dx)
      (a + ((k + 1 : ℕ) : ℝ) * dx) :=
    fun k _ => hf.continuous.intervalIntegrable _ _
  have hpieces := sum_integral_adjacent_intervals
    (a := fun k : ℕ => a + (k : ℝ) * dx) hint
  rw [Nat.cast_zero, zero_mul, add_zero] at hpieces
  rw [← hpieces, leftSum, ← Finset.sum_sub_distrib]
  calc |∑ k ∈ Finset.range n, (f (a + k * dx) * dx -
        ∫ x in a + (k : ℝ) * dx..a + ((k + 1 : ℕ) : ℝ) * dx, f x)|
      ≤ ∑ k ∈ Finset.range n, |f (a + k * dx) * dx -
        ∫ x in a + (k : ℝ) * dx..a + ((k + 1 : ℕ) : ℝ) * dx, f x| :=
        Finset.abs_sum_le_sum_abs _ _
    _ ≤ ∑ _k ∈ Finset.range n, K * dx ^ 2 / 2 := by
        refine Finset.sum_le_sum fun k _ => ?_
        have hcut : a + ((k + 1 : ℕ) : ℝ) * dx = a + k * dx + dx := by
          push_cast
          ring
        rw [hcut]
        exact abs_strip_sub_integral_le hf hdx
    _ = n * (K * dx ^ 2 / 2) := by
        rw [Finset.sum_const, Finset.card_range, nsmul_eq_mul]

end Lipschitz

end Sysops.Rectangles
